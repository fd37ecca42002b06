import Std.Data.ExtTreeMap

namespace RightLinear.CommandLine

inductive FileFault
  | notFound
  | notADirectory
  | isADirectory
  | nameTooLong
  | notUtf8
  | other (details : String)
  deriving DecidableEq, Repr

def FileFault.message : FileFault → String
  | notFound => "No such file or directory (os error 2)"
  | notADirectory => "Not a directory (os error 20)"
  | isADirectory => "Is a directory (os error 21)"
  | nameTooLong => "File name too long (os error 36)"
  | notUtf8 => "stream did not contain valid UTF-8"
  | other details => details

structure FileSystem (m : Type → Type) where
  read : String → m (Except FileFault ByteArray)
  write : String → ByteArray → m (Except FileFault Unit)

def textOfBytes (bytes : ByteArray) : Except FileFault String :=
  match String.fromUTF8? bytes with
  | some s => .ok s
  | none => .error .notUtf8

abbrev Directory := Std.ExtTreeMap String ByteArray

namespace Directory

def maxNameSize : Nat := 255

def maxPathSize : Nat := 4095

inductive Place
  | directory
  /-- A name in the directory, whether or not there is such a file. -/
  | entry (name : String)
  /-- A name with slashes after it, and why no directory is found under it. -/
  | absentDirectory (fault : FileFault)
  deriving DecidableEq, Repr

def absence (d : Directory) (inside : Bool) (name : String) : FileFault :=
  if maxNameSize < name.utf8ByteSize then .nameTooLong
  else if inside && d.contains name then .notADirectory
  else .notFound

/-- Follows the parts of a path.  Nothing is known of other directories but that they exist. -/
def locate (d : Directory) (inside : Bool) : List String → Except FileFault Place
  | [] => .ok .directory
  | part :: parts =>
    if part = "" || part = "." then d.locate inside parts
    else if part = ".." then d.locate false parts
    else if parts.isEmpty && inside && part.utf8ByteSize ≤ maxNameSize then .ok (.entry part)
    else if !parts.isEmpty && parts.all String.isEmpty then
      .ok (.absentDirectory (d.absence inside part))
    else .error (d.absence inside part)

def place (d : Directory) (path : String) : Except FileFault Place :=
  if maxPathSize < path.utf8ByteSize then .error .nameTooLong
  else d.locate (!path.startsWith "/") ((path.toList.splitOn '/').map String.ofList)

def read (d : Directory) (path : String) : Except FileFault ByteArray :=
  (d.place path).bind fun
    | .directory => .error .isADirectory
    | .absentDirectory fault => .error fault
    | .entry name =>
      match d[name]? with
      | some bytes => .ok bytes
      | none => .error .notFound

/-- Writing makes a file where there is none, but never under a name that slashes follow: that is
refused before the name is looked up. -/
def write (d : Directory) (path : String) (bytes : ByteArray) : Except FileFault Directory :=
  (d.place path).bind fun
    | .directory | .absentDirectory _ => .error .isADirectory
    | .entry name => .ok (d.insert name bytes)

def fileSystem : FileSystem (StateM Directory) where
  read path := fun d => (d.read path, d)
  write path bytes := fun d =>
    match d.write path bytes with
    | .ok e => (.ok (), e)
    | .error fault => (.error fault, d)

end Directory

end RightLinear.CommandLine
