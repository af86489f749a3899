/-!
Files as commands use them, and a folder in memory that provides them.

A path is taken from the folder that commands run in. It is followed part by part, and every part
but the last has to be a folder that exists. Names and paths are bounded in their length.
-/

namespace Stylesheet

inductive Source where
  | missing
  /-- There is something that cannot be read as a file. -/
  | unreadable
  | bytes (content : ByteArray)

class Files (m : Type → Type) where
  /-- Looks for a file. -/
  read : String → m Source
  /-- Makes an empty file in place of any file of that path; tells whether that was possible. -/
  create : String → m Bool
  /-- Gives a file its content. -/
  write : String → ByteArray → m Unit
  /-- Removes a file. -/
  remove : String → m Unit

/-- Something in a folder, named by the parts of its path. -/
inductive Entry where
  | file (content : ByteArray)
  | folder

structure Folder where
  entries : List (List String × Entry) := []

inductive Place where
  /-- Into the folder, by the names of these parts; without parts it is the folder itself. -/
  | inside (parts : List String)
  /-- To a folder around it, of which nothing more is known. -/
  | outside
  deriving DecidableEq

namespace Folder

/-- What stands at a path of plain names. -/
def lookup? (folder : Folder) (parts : List String) : Option Entry :=
  (folder.entries.find? fun entry => entry.1 == parts).map (·.2)

def isFolder (folder : Folder) : Place → Bool
  | .outside | .inside [] => true
  | .inside parts =>
    match folder.lookup? parts with
    | some .folder => true
    | _ => false

def around : Place → Place
  | .outside | .inside [] => .outside
  | .inside parts => .inside parts.dropLast

/-- The greatest number of bytes in a name. -/
def maxName : Nat := 255

/-- The greatest number of bytes in a path. -/
def maxPath : Nat := 4095

def follow (folder : Folder) (place : Place) (part : String) : Option Place :=
  if !folder.isFolder place then none
  else if part = "" ∨ part = "." then some place
  else if part = ".." then some (around place)
  else if maxName < part.utf8ByteSize then none
  else
    match place with
    | .inside parts => some (.inside (parts ++ [part]))
    | .outside => none

def split : List Char → List (List Char)
  | [] => [[]]
  | c :: rest =>
    if c = '/' then [] :: split rest
    else
      match split rest with
      | [] => [[c]]
      | part :: parts => (c :: part) :: parts

/-- Follows a path. The empty path leads nowhere, and so does one that is too long. -/
def locate (folder : Folder) (path : String) : Option Place :=
  if path = "" ∨ maxPath < path.utf8ByteSize then none
  else
    ((split path.toList).map String.ofList).foldlM folder.follow
      (if path.startsWith "/" then .outside else .inside [])

def read (folder : Folder) (path : String) : Source :=
  match folder.locate path with
  | none => .missing
  | some place =>
    if folder.isFolder place then .unreadable
    else
      match place with
      | .outside => .missing
      | .inside parts =>
        match folder.lookup? parts with
        | some (.file content) => .bytes content
        | _ => .missing

def erase (folder : Folder) (parts : List String) : Folder :=
  ⟨folder.entries.filter fun entry => entry.1 != parts⟩

/-- Puts a file at a path, unless the path leads to a folder or nowhere. -/
def write? (folder : Folder) (path : String) (content : ByteArray) : Option Folder :=
  match folder.locate path with
  | some (.inside parts) =>
    if folder.isFolder (.inside parts) then none
    else some ⟨(parts, .file content) :: (folder.erase parts).entries⟩
  | _ => none

def remove (folder : Folder) (path : String) : Folder :=
  match folder.locate path with
  | some (.inside parts) =>
    if folder.isFolder (.inside parts) then folder else folder.erase parts
  | _ => folder

instance : Files (StateM Folder) where
  read path := do return (← get).read path
  create path := do
    match (← get).write? path .empty with
    | some folder => set folder; return true
    | none => return false
  write path content := modify fun folder => (folder.write? path content).getD folder
  remove path := modify fun folder => folder.remove path

end Folder

end Stylesheet
