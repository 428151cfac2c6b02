import RegisterColoring.Text.Split
/-!
# The folder of the input

The input is named by a path, which is followed part by part from the working folder, or
from the top if it starts with a slash. The folder holds plain files only, and of the
folders around it nothing is known but that they are there.
-/
namespace RegisterColoring.Command

/-- Why the input cannot be read as text. -/
inductive Unreadable
  | missing
  | directory
  | notADirectory
  | nameTooLong
  | notText
  | other (reason : String)

def Unreadable.message : Unreadable → String
  | .missing => "No such file or directory (os error 2)"
  | .directory => "Is a directory (os error 21)"
  | .notADirectory => "Not a directory (os error 20)"
  | .nameTooLong => "File name too long (os error 36)"
  | .notText => "stream did not contain valid UTF-8"
  | .other reason => reason

structure Folder where
  files : List (String × ByteArray)

/-- What a path has led to so far. -/
inductive Place
  | inside
  | outside
  | file (content : ByteArray)

namespace Folder

/-- The longest path in bytes. -/
def longestPath : Nat := 4095

/-- The longest part of a path in bytes. -/
def longestName : Nat := 255

def find (d : Folder) (p : Place) (name : String) : Except Unreadable Place :=
  if longestName < name.utf8ByteSize then .error .nameTooLong
  else
    match p, d.files.lookup name with
    | .inside, some content => .ok (.file content)
    | _, _ => .error .missing

/-- Follow one part of a path. Only folders have parts, also empty ones. -/
def follow (d : Folder) (p : Place) (part : String) : Except Unreadable Place :=
  match p, part with
  | .file _, _ => .error .notADirectory
  | p, "" => .ok p
  | p, "." => .ok p
  | _, ".." => .ok .outside
  | p, name => d.find p name

def resolve (d : Folder) (path : String) : Except Unreadable Place :=
  if path.isEmpty then .error .missing
  else if longestPath < path.utf8ByteSize then .error .nameTooLong
  else
    let parts := (Text.pieces (· == '/') path.toList).map String.ofList
    parts.foldlM d.follow (if path.front = '/' then .outside else .inside)

def textOf (content : ByteArray) : Except Unreadable String :=
  match String.fromUTF8? content with
  | some text => .ok text
  | none => .error .notText

def read (d : Folder) (path : String) : Except Unreadable String :=
  match d.resolve path with
  | .ok (.file content) => textOf content
  | .ok _ => .error .directory
  | .error cause => .error cause

end Folder

end RegisterColoring.Command
