import GraphStack.Config.Json
import GraphStack.Config.Yaml

/-!
# Configuration files

A file whose name has the extension `json`, in any case, holds JSON, and any other file YAML. The
extension is what follows the last point of the last part of a path, unless that point begins the
part. A configuration that was loaded is logged.
-/

namespace GraphStack.Config

inductive PathContent
  | file (bytes : ByteArray)
  | directory
  | nothing

structure Loaded where
  path : String
  config : Config
  deriving DecidableEq, Repr

namespace Loaded

def message : String := "loaded gss config"

def limitText (l : Loaded) : String :=
  (Outline.ofOption (l.config.maxLiveNodes.map fun n => .ofNat n.toNat)).line

end Loaded

def afterLast (separator : Char) (cs : List Char) : List Char :=
  (cs.reverse.takeWhile (· != separator)).reverse

def extension? (path : String) : Option String :=
  let name := afterLast '/' path.toList
  let extension := afterLast '.' name
  if name = ['.', '.'] ∨ name.length ≤ extension.length + 1 then none
  else some (String.ofList extension)

def isJsonPath (path : String) : Bool :=
  (extension? path).any fun e => e.toLower == "json"

/-- Why there is no text under a path. -/
inductive ReadFailure
  | notFound
  | directory
  | nameTooLong
  | zeroCharacter
  | notUtf8
  deriving DecidableEq, Repr

def ReadFailure.message : ReadFailure → String
  | notFound => "No such file or directory (os error 2)"
  | directory => "Is a directory (os error 21)"
  | nameTooLong => "File name too long (os error 36)"
  | zeroCharacter => "file name contained an unexpected NUL byte"
  | notUtf8 => "stream did not contain valid UTF-8"

/-- A part of a path that stays in a directory or leaves it for the one above. -/
def isStep (part : String) : Bool := part = "" || part = "." || part = ".."

/-- What is met under a path where nothing was put: a directory after steps alone, and otherwise a
name that is not there, of at most 255 bytes. -/
def failureOfNothing (path : String) : ReadFailure :=
  match (path.splitOn "/").find? (!isStep ·) with
  | none => if path.isEmpty then .notFound else .directory
  | some part => if 255 < part.utf8ByteSize then .nameTooLong else .notFound

/-- The text of a file; a path has less than 4096 bytes and no zero character. -/
def textAt (path : String) (content : PathContent) : Except ReadFailure String :=
  if path.contains '\x00' then .error .zeroCharacter
  else if 4096 ≤ path.utf8ByteSize then .error .nameTooLong
  else
    match content with
    | .file bytes =>
      match String.fromUTF8? bytes with
      | some text => .ok text
      | none => .error .notUtf8
    | .directory => .error .directory
    | .nothing => .error (failureOfNothing path)

def unreadable (path : String) (failure : ReadFailure) : Fault :=
  (Fault.plain .config ("cannot read '" ++ path ++ "': " ++ failure.message)).because
    failure.message

def ofPath (path : String) (content : PathContent) : Except Fault Config :=
  match textAt path content with
  | .error failure => .error (unreadable path failure)
  | .ok text => if isJsonPath path then ofJsonNamed path text else ofYamlNamed path text

def loaded? (path : String) (content : PathContent) : Option Loaded :=
  (ofPath path content).toOption.map (Loaded.mk path)

end GraphStack.Config
