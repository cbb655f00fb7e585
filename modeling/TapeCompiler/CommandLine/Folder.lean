import TapeCompiler.Text.Quoted
/-!
# Folders

The files that the command may read and write, kept by their paths. A folder exists as long as a
file lies in it, and the outermost one always exists. It lies in folders of which nothing else is
known: nothing can be read there, and what is written there changes no file that is kept here.
-/
namespace TapeCompiler.CommandLine

/-- A path as its names from the outermost folder on. -/
abbrev Path := List String

/-- The names in the text of a path. Repeated slashes and single dots mean nothing. -/
def pathNames (text : String) : Path :=
  ((text.toList.splitOn '/').map String.ofList).filter fun name => name ≠ "" ∧ name ≠ "."

/-- The slashes that stay at the beginning of a path. Just two of them have a meaning of their own,
more mean the same as one. -/
def leadingSlashes (text : String) : String :=
  match (text.toList.takeWhile (· = '/')).length with
  | 0 => ""
  | 2 => "//"
  | _ => "/"

/-- The shortest text of the same path. -/
def tidyPath (text : String) : String :=
  let tidy := leadingSlashes text ++ "/".intercalate (pathNames text)
  if tidy.isEmpty then "." else tidy

/-- Why there is no file at a path. -/
inductive PathProblem where
  | missing
  | notFolder
  | isFolder
  /-- The path is too long, or a name in it. -/
  | tooLong
  /-- The path holds the character that ends a path. -/
  | embeddedNull
  deriving DecidableEq, Repr

def PathProblem.message (problem : PathProblem) (path : String) : String :=
  let path := Text.quote (tidyPath path)
  match problem with
  | missing => "[Errno 2] No such file or directory: " ++ path
  | notFolder => "[Errno 20] Not a directory: " ++ path
  | isFolder => "[Errno 21] Is a directory: " ++ path
  | tooLong => "[Errno 36] File name too long: " ++ path
  | embeddedNull => "embedded null byte"

/-- Most bytes that one name may have. -/
def nameLimit : Nat := 255

/-- Most bytes that the tidy text of a path may have. -/
def pathLimit : Nat := 4095

/-- Where the text of a path leads. -/
inductive Place where
  /-- Into the outermost folder that is kept, or to that folder itself. -/
  | inside (path : Path)
  /-- To a folder around it. -/
  | around
  /-- To something else beyond it. -/
  | beyond
  deriving DecidableEq, Repr

/-- Files with their contents. -/
abbrev Folder := List (Path × List UInt8)

/-- What is at a path. -/
inductive Entry where
  | file (contents : List UInt8)
  | folder
  deriving DecidableEq, Repr

namespace Folder

def entry? (folder : Folder) (path : Path) : Option Entry :=
  match folder.lookup path with
  | some contents => some (.file contents)
  | none =>
    if path.isEmpty || folder.any fun file => path.isPrefixOf file.1 then some .folder else none

/-- What is at a place. -/
def entryAt? (folder : Folder) : Place → Option Entry
  | .inside path => folder.entry? path
  | .around => some .folder
  | .beyond => none

/-- Goes on from a folder to a name in it. Two dots lead to the folder around. -/
def enter (here : Place) (name : String) : Place :=
  match here with
  | .inside path =>
    if name ≠ ".." then .inside (path ++ [name])
    else if path.isEmpty then .around
    else .inside path.dropLast
  | .around => if name ≠ ".." then .beyond else .around
  | .beyond => .beyond

/-- Goes from one place along names, through folders that exist, without looking at what is at the
end. -/
def walk (folder : Folder) : Place → List String → Except PathProblem Place
  | here, [] => .ok here
  | here, name :: rest =>
    match folder.entryAt? here with
    | none => .error .missing
    | some (.file _) => .error .notFolder
    | some .folder =>
      if name.utf8ByteSize > nameLimit then .error .tooLong
      else folder.walk (enter here name) rest

/-- The place that the text of a path leads to. Behind a slash it begins around the folder. A text
that can be no path leads nowhere, whatever its names are. -/
def locate (folder : Folder) (path : String) : Except PathProblem Place :=
  if '\x00' ∈ path.toList then .error .embeddedNull
  else if (tidyPath path).utf8ByteSize > pathLimit then .error .tooLong
  else
    folder.walk (if path.toList.head? = some '/' then .around else .inside []) (pathNames path)

def read (folder : Folder) (path : String) : Except PathProblem (List UInt8) := do
  match folder.entryAt? (← folder.locate path) with
  | none => .error .missing
  | some .folder => .error .isFolder
  | some (.file contents) => .ok contents

/-- The place of a file to be written. -/
def placeFor (folder : Folder) (path : String) : Except PathProblem Place := do
  let place ← folder.locate path
  if folder.entryAt? place = some .folder then .error .isFolder else .ok place

/-- The files with new contents at a place. What is at a place outside is not kept. -/
def store (folder : Folder) (place : Place) (contents : List UInt8) : Folder :=
  match place with
  | .inside path => (path, contents) :: folder
  | .around | .beyond => folder

end Folder

end TapeCompiler.CommandLine
