import Persona.Command
import Persona.Command.Refusal

/-! A folder in memory for commands to work in.

A path is followed part by part, from the folder or, with a slash at its front, from
outside of it, where nothing is. Every part but the last must lead to a folder, and
so must the last one if a slash is behind it. -/
namespace Persona.Command

/-- Files by the parts of their paths, and the streams of a command. -/
structure Folder where
  files : List (List String × List UInt8)
  input : String := ""
  printed : String := ""
  warned : String := ""

/-- What a path leads to; the last may still be made. -/
inductive Place where
  | folder
  | file (place : List String) (bytes : List UInt8)
  | free (place : List String)

namespace Folder

def maxNameBytes : Nat := 255

def file? (d : Folder) (place : List String) : Option (List UInt8) := d.files.lookup place

/-- A folder is there if a file is in it. -/
def hasFolder (d : Folder) (place : List String) : Bool :=
  d.files.any fun (file, _) => place.isPrefixOf file && place.length < file.length

/-- One folder up; above the outermost one there are others. -/
def above (place : List String) : List String :=
  if place.all (· == "..") then place ++ [".."] else place.dropLast

/-- Follows parts from a folder on. -/
def follow (d : Folder) (here : List String) : List String → Except Refusal Place
  | [] => .ok .folder
  | part :: rest =>
    if isIdle part then d.follow here rest
    else if part = ".." then d.follow (above here) rest
    else if maxNameBytes < part.utf8ByteSize then .error .nameTooLong
    else
      let there := here ++ [part]
      if d.hasFolder there then d.follow there rest
      else match d.file? there, rest with
        | some bytes, [] => .ok (.file there bytes)
        | some _, _ => .error .notAFolder
        | none, [] => .ok (.free there)
        | none, _ => .error .missing

/-- Where a path begins. -/
def origin (path : String) : List String := if path.startsWith "/" then above [] else []

def find (d : Folder) (path : String) : Except Refusal Place :=
  match Refusal.ofPath? path with
  | some r => .error r
  | none => d.follow (origin path) (parts path)

def exists? (d : Folder) (path : String) : Bool :=
  match d.find path with
  | .ok .folder | .ok (.file ..) => true
  | .ok (.free _) | .error _ => false

def read (d : Folder) (path : String) : Except Refusal (List UInt8) := do
  match ← d.find path with
  | .file _ bytes => return bytes
  | .folder => throw .isAFolder
  | .free _ => throw .missing

def put (d : Folder) (place : List String) (bytes : List UInt8) : Folder :=
  { d with files := (place, bytes) :: d.files.filter fun (file, _) => file != place }

/-- Where a file is or can be made. A path with a slash at its end is none of a file; what is
before its last part must be there nevertheless. -/
def findForWriting (d : Folder) (path : String) : Except Refusal Place :=
  match Refusal.ofPath? path with
  | some r => .error r
  | none =>
    let ps := parts path
    if ps.getLast? != some "" then d.follow (origin path) ps
    else
      let named := (ps.reverse.dropWhile String.isEmpty).reverse
      (d.follow (origin path) (named.dropLast ++ [""])).map fun _ => .folder

/-- Changes the bytes of a file, which is made if it is not there. -/
def write (d : Folder) (path : String) (change : List UInt8 → List UInt8) : Except Refusal Folder := do
  match ← d.findForWriting path with
  | .file place bytes => return d.put place (change bytes)
  | .free place => return d.put place (change [])
  | .folder => throw .isAFolder

def changing (act : Folder → Except Refusal Folder) : StateM Folder (Except String Unit) := do
  match act (← get) with
  | .ok d =>
    set d
    return .ok ()
  | .error e => return .error e.message

/-- The surroundings of a command in a folder. -/
def surroundings : Surroundings (StateM Folder) where
  exists? path := do return (← get).exists? path
  read path := do return ((← get).read path).mapError Refusal.message
  write path bytes := changing fun d => d.write path fun _ => bytes
  openLog path := changing fun d => d.write path id
  print s := modify fun d => { d with printed := d.printed ++ s }
  warn s := modify fun d => { d with warned := d.warned ++ s }
  input := do return (← get).input

end Folder

end Persona.Command
