/-
  Engram.Storage.FileTree — a directory of files as a value.

  The entries of a directory are kept by the components of their paths. A path is followed
  component by component; every component but the last has to lead to a directory, and so has the
  last when a slash follows it. Paths that lead out of the tree reach a directory in which nothing
  is found.
-/

import Engram.Storage.Files

namespace Engram

/-- An entry of a directory. -/
inductive Entry where
  | directory
  | file (content : ByteArray)

/-- Entries by path; a directory that a longer path implies need not be listed. -/
abbrev FileTree := List (List String × Entry)

/-- Where a path leads: to a position in the tree, or out of it. -/
inductive Place where
  | inside (position : List String)
  | outside
  deriving DecidableEq, Repr

namespace FileTree

/-- The components of a path, split at slashes. -/
def components (path : String) : List String := path.splitOn "/"

/-- The entry at a place. -/
def entry? (t : FileTree) : Place → Option Entry
  | .outside => some .directory
  | .inside position =>
    if position.isEmpty then some .directory
    else match t.lookup position with
      | some e => some e
      | none => if t.any fun e => position.isPrefixOf e.1 then some .directory else none

/-- The directory above a place. -/
def parent : Place → Place
  | .outside => .outside
  | .inside position => if position.isEmpty then .outside else .inside position.dropLast

/-- The greatest length of a component and of a path, in bytes. -/
def maxName : Nat := 255

def maxPath : Nat := 4095

/-- Follows components from a place that exists. The answer is a place that exists, or one whose
directory exists and whose last component is new. -/
def follow (t : FileTree) (place : Place) : List String → Except FileFault Place
  | [] => .ok place
  | name :: rest =>
    match t.entry? place with
    | some .directory =>
      if name == "" || name == "." then follow t place rest
      else if name == ".." then follow t (parent place) rest
      else if maxName < name.utf8ByteSize then .error .nameTooLong
      else match place with
        | .outside => .error .notFound
        | .inside position =>
          let next := .inside (position ++ [name])
          if rest.isEmpty || (t.entry? next).isSome then follow t next rest
          else .error .notFound
    | some (.file _) => .error .notDirectory
    | none => .error .notFound

/-- Follows the components of a path, of which `path` was split. -/
def place (t : FileTree) (path : String) (names : List String) : Except FileFault Place :=
  if path.isEmpty then .error .notFound
  else if maxPath < path.utf8ByteSize then .error .nameTooLong
  else follow t (if path.startsWith "/" then .outside else .inside []) names

/-- The text of a file. -/
def read (t : FileTree) (path : String) : Except FileFault String := do
  match t.entry? (← t.place path (components path)) with
  | some (.file content) =>
    match String.fromUTF8? content with
    | some text => .ok text
    | none => .error .invalidText
  | some .directory => .error .isDirectory
  | none => .error .notFound

/-- The components of a path that ends in a slash, up to the directory of the last one. -/
def aboveSlash? (path : String) : Option (List String) :=
  if path.endsWith "/" then
    some ((components path).reverse.dropWhile (· == "")).tail.reverse
  else none

/-- The tree with the text of a file written. A path that ends in a slash asks for a directory,
whether there is one or not. -/
def write (t : FileTree) (path text : String) : Except FileFault FileTree := do
  match aboveSlash? path with
  | some names =>
    let _ ← t.place path (names ++ ["."])
    .error .isDirectory
  | none =>
    let place ← t.place path (components path)
    match t.entry? place, place with
    | some (.file _), .inside position => .ok ((position, .file text.toUTF8) :: t.filter (·.1 != position))
    | none, .inside position => .ok ((position, .file text.toUTF8) :: t)
    | _, _ => .error .isDirectory

/-- Reading and writing in a tree that is the state. -/
def files : Files (StateM FileTree) where
  read path := return (← get).read path
  write path text := do
    match (← get).write path text with
    | .ok t =>
      set t
      return .ok ()
    | .error e => return .error e

end FileTree

end Engram
