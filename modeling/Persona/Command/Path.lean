/-! Paths of files, as texts with `/` between their parts. -/
namespace Persona.Command

/-- The parts of a path. Doubled slashes and slashes at the end give empty ones. -/
def parts (path : String) : List String := path.splitOn "/"

/-- A part that leads nowhere. -/
def isIdle (part : String) : Bool := part == "" || part == "."

/-- Drops idle parts at the end. The first part stays: it tells where the path begins. -/
def dropIdle : List String → List String
  | [] => []
  | first :: rest => first :: (rest.reverse.dropWhile isIdle).reverse

/-- The folder that a file is in. -/
def folderOf (file : String) : String :=
  match dropIdle (dropIdle (parts file)).dropLast with
  | [""] => "/"
  | ps => "/".intercalate ps

/-- A path relative to the folder that a file is in. -/
def beside (file path : String) : String :=
  let folder := folderOf file
  if path.startsWith "/" || folder.isEmpty then path
  else if folder.endsWith "/" then folder ++ path
  else folder ++ "/" ++ path

/-- The last part of a path, if it is the name of something. -/
def fileName? (path : String) : Option String :=
  (dropIdle (parts path)).getLast?.filter fun name => !isIdle name && name != ".."

/-- A file name in two parts: up to its last point, unless that is the first character,
and behind it. -/
def splitName (name : List Char) : List Char × Option (List Char) :=
  let extension := (name.reverse.takeWhile (· != '.')).reverse
  let stem := name.take (name.length - extension.length - 1)
  if extension.length = name.length || stem.isEmpty then (name, none) else (stem, some extension)

def extension? (path : String) : Option String := do
  (splitName (← fileName? path).toList).2.map String.ofList

/-- The path of a file with another extension. A name such as `..x` is the folder above when
its own extension is gone, and stays that. -/
def withExtension (path extension : String) : String :=
  match fileName? path with
  | none => path
  | some name =>
    let name := match splitName name.toList with
      | (['.'], _) => ".."
      | (stem, _) => String.ofList stem ++ "." ++ extension
    "/".intercalate ((dropIdle (parts path)).dropLast ++ [name])

end Persona.Command
