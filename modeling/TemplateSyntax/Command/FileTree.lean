import TemplateSyntax.Text.Bytes

/-!
# File trees

A file tree is the directory of a run as a value: the files in it with their paths, and the little that is known of
the system around it. Looking up a path follows its names one by one, so `..` leaves only what is there, and a file has
nothing below it.
-/

namespace TemplateSyntax.Command

/-- Why a file could not be read. -/
inductive ReadFault where
  | missing
  | notDirectory
  | isDirectory
  | nameTooLong
  /-- The bytes are no text. -/
  | notText
  | other (reason : String)
deriving DecidableEq, Inhabited

def ReadFault.reason : ReadFault → String
  | .missing => "No such file or directory (os error 2)"
  | .notDirectory => "Not a directory (os error 20)"
  | .isDirectory => "Is a directory (os error 21)"
  | .nameTooLong => "File name too long (os error 36)"
  | .notText => "stream did not contain valid UTF-8"
  | .other reason => reason

/-- The text of a file with the given bytes. -/
def decode (bytes : ByteArray) : Except ReadFault String :=
  match String.fromUTF8? bytes with
  | some text => .ok text
  | none => .error .notText

/-! ### Places -/

/-- The directory from which the names of a place lead down: the one of the run, one above it, or the root. -/
inductive Anchor where
  | here
  | above
  | root
deriving DecidableEq, Inhabited

/-- A place in the system, by the names on the way down to it. -/
structure Place where
  anchor : Anchor
  names : List (List Char)
deriving DecidableEq, Inhabited

namespace Place

/-- The place that one name leads to. An empty name stands between two slashes, and after a slash at the end. -/
def step (place : Place) (name : List Char) : Place :=
  if name = [] ∨ name = ['.'] then place
  else if name = ['.', '.'] then
    match place with
    | ⟨.here, []⟩ => ⟨.above, []⟩
    | ⟨anchor, names⟩ => ⟨anchor, names.dropLast⟩
  else { place with names := place.names ++ [name] }

/-- Where a path begins, and its names. A slash at the start stands for the root. -/
def ofPath (path : String) : Place × List (List Char) :=
  match path.toList.splitOn '/' with
  | [] :: name :: names => (⟨.root, []⟩, name :: names)
  | names => (⟨.here, []⟩, names)

end Place

/-! ### Trees -/

structure FileTree where
  /-- Each file by its place, with its bytes. -/
  files : List (Place × ByteArray)
  /-- The directories that are there without regard to files. -/
  directories : List Place

namespace FileTree

/-- The directories below the root that every system has. -/
def systemDirectories : List String :=
  ["bin", "dev", "etc", "lib", "proc", "tmp", "usr", "var"]

/-- The directory of a run that holds the given files and nothing else. Of the system around it the root is known, its
common directories, and the device that is an empty file. -/
def ofFiles (files : List (String × ByteArray)) : FileTree where
  files := (("/dev/null", .empty) :: files).map fun (path, bytes) =>
    let (start, names) := Place.ofPath path
    (names.foldl Place.step start, bytes)
  directories := systemDirectories.map fun name => ⟨.root, [name.toList]⟩

def file? (place : Place) (t : FileTree) : Option ByteArray :=
  (t.files.find? fun f => f.1 == place).map Prod.snd

/-- Where names lead down from is a directory, and so is everything above a file. -/
def isDirectory (place : Place) (t : FileTree) : Bool :=
  place.names.isEmpty || t.directories.contains place ||
    t.files.any fun f => f.1.anchor == place.anchor && place.names.isPrefixOf f.1.names && place != f.1

/-- The most bytes that a name may have. -/
def nameLimit : Nat := 255

/-- A path of this many bytes is not looked up. -/
def pathLimit : Nat := 4096

/-- The place that names lead to from `here`. Only a directory can be left by a name, even by an empty one. -/
def walk (t : FileTree) (here : Place) : List (List Char) → Except ReadFault Place
  | [] => .ok here
  | name :: names =>
    if !t.isDirectory here then .error (if (t.file? here).isSome then .notDirectory else .missing)
    else if nameLimit < Text.byteLength name then .error .nameTooLong
    else t.walk (here.step name) names

/-- The place that a path leads to. -/
def locate (t : FileTree) (path : String) : Except ReadFault Place :=
  if pathLimit ≤ path.utf8ByteSize then .error .nameTooLong
  else
    let (start, names) := Place.ofPath path
    t.walk start names

/-- The text of the file at a path. -/
def read (t : FileTree) (path : String) : Except ReadFault String :=
  match t.locate path with
  | .error f => .error f
  | .ok place =>
    match t.file? place with
    | some bytes => decode bytes
    | none => .error (if t.isDirectory place then .isDirectory else .missing)

end FileTree

end TemplateSyntax.Command
