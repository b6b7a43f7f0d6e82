/-!
# Directories

The files a command works on: those of a root directory and of the folders in it. One of the folders is the home that paths
set out from, unless a slash in front leads them to the root. A path is looked up part by part, as an operating system does it,
and what goes wrong with a path or a file has the text and the number the system gives it.
-/

namespace SearchRules.CommandLine

/-- What goes wrong with a file. Other things than these have the text the system gives them. -/
inductive FileError where
  | missing | notFolder | isFolder | nameTooLong | badName | notText
  | other (text : String)
  deriving DecidableEq, Repr

/-- The text of what goes wrong with a file. -/
def FileError.text : FileError → String
  | .missing => "No such file or directory (os error 2)"
  | .notFolder => "Not a directory (os error 20)"
  | .isFolder => "Is a directory (os error 21)"
  | .nameTooLong => "File name too long (os error 36)"
  | .badName => "file name contained an unexpected NUL byte"
  | .notText => "stream did not contain valid UTF-8"
  | .other text => text

/-- The text that bytes are. -/
def textOf (content : ByteArray) : Except FileError String :=
  match String.fromUTF8? content with
  | some text => .ok text
  | none => .error .notText

/-- The way to a file or folder from the root: the names of the folders that lead to it, and its own. -/
abbrev Place := List String

/-- What is done with a file. -/
inductive Access where
  | read | write
  deriving DecidableEq, Repr

/-- A directory: its folders, and the bytes of its files. -/
structure Directory where
  folders : List Place := []
  files : List (Place × ByteArray) := []
  /-- The folder that paths set out from. -/
  home : Place := []
  /-- Which files the system does not let be read or written, and what it says. -/
  refusal : Access → Place → Option FileError := fun _ _ => none

/-- Whether a part of a path stays in the folder it is looked up in. -/
def isIdle (part : String) : Bool :=
  part == "" || part == "."

/-- What a path leads to. -/
inductive Target where
  | folder
  | file (place : Place) (content : ByteArray)
  | absent (place : Place)

namespace Directory

/-- How many bytes a name may have. -/
def maxNameBytes : Nat := 255

/-- How many bytes a path may have. -/
def maxPathBytes : Nat := 4095

/-- Whether a folder is at a place: one of the directory, or one on the way to the home. -/
def hasFolder (d : Directory) (place : Place) : Bool :=
  d.folders.contains place || place.isPrefixOf d.home

/-- What the parts of a path lead to from a folder. Behind a file nothing may follow, and above the root is the root. -/
def walk (d : Directory) (folder : Place) : List String → Except FileError Target
  | [] => .ok .folder
  | part :: rest =>
    if isIdle part then d.walk folder rest
    else if part = ".." then d.walk folder.dropLast rest
    else if maxNameBytes < part.utf8ByteSize then .error .nameTooLong
    else
      let place := folder ++ [part]
      if d.hasFolder place then d.walk place rest
      else
        match d.files.lookup place with
        | some content => if rest.isEmpty then .ok (.file place content) else .error .notFolder
        | none => if rest.isEmpty then .ok (.absent place) else .error .missing

/-- The parts of a path, if the system takes it as a path at all. -/
def pathParts (path : String) : Except FileError (List String) :=
  if path.toList.contains (Char.ofNat 0) then .error .badName
  else if maxPathBytes < path.utf8ByteSize then .error .nameTooLong
  else .ok (path.splitToList (· == '/'))

/-- Where a path sets out: at the root if a slash is in front, else at the home. -/
def start (d : Directory) (path : String) : Place :=
  if path.startsWith "/" then [] else d.home

/-- What a path leads to. -/
def find (d : Directory) (path : String) : Except FileError Target := do
  d.walk (d.start path) (← pathParts path)

/-- What a path leads to when a file is to be written there. A slash at the end asks for a folder, whatever the last name leads
to: only the folders before that name have to be there. -/
def findToWrite (d : Directory) (path : String) : Except FileError Target := do
  if path.endsWith "/" then
    let parts := (← pathParts path).reverse.dropWhile (· == "")
    match parts with
    | [] => .ok .folder
    | last :: before =>
      match ← d.walk (d.start path) (if last = "." ∨ last = ".." then parts else before).reverse with
      | .folder => .ok .folder
      | .file _ _ => .error .notFolder
      | .absent _ => .error .missing
  else d.find path

/-- Whether a path leads to a file or a folder. -/
def hasPath (d : Directory) (path : String) : Bool :=
  match d.find path with
  | .ok .folder | .ok (.file _ _) => true
  | _ => false

/-- Whether the system lets a file be read or written. -/
def permit (d : Directory) (access : Access) (place : Place) : Except FileError Unit :=
  match d.refusal access place with
  | some e => .error e
  | none => .ok ()

/-- The text of the file under a path. -/
def readText (d : Directory) (path : String) : Except FileError String := do
  match ← d.find path with
  | .folder => .error .isFolder
  | .absent _ => .error .missing
  | .file place content =>
    d.permit .read place
    textOf content

/-- Files with the bytes of one file set. -/
def putFile (place : Place) (content : ByteArray) : List (Place × ByteArray) → List (Place × ByteArray)
  | [] => [(place, content)]
  | (p, c) :: fs => if p = place then (p, content) :: fs else (p, c) :: putFile place content fs

/-- The directory with a text written to the file under a path, which is made if it is missing. A text that cannot be written
leaves the file as it was. -/
def writeText (d : Directory) (path text : String) : Except FileError Directory := do
  match ← d.findToWrite path with
  | .folder => .error .isFolder
  | .file place _ | .absent place =>
    d.permit .write place
    .ok { d with files := putFile place text.toUTF8 d.files }

end Directory

end SearchRules.CommandLine
