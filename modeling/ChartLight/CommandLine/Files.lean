import ChartLight.LoadFault

/-! A directory of files, and what a path in it leads to. -/

namespace ChartLight.CommandLine

abbrev Files := List (String × ByteArray)

namespace Files

/-- The names on a path; a point stands for the directory it is in. -/
def components (path : String) : List String :=
  ((path.toList.splitOn '/').map String.ofList).filter fun name => name != "" && name != "."

/-- Whether a path can only lead to a directory. -/
def namesDirectory (path : String) : Bool :=
  match (path.toList.splitOn '/').getLast? with
  | some name => name.isEmpty || name == ['.']
  | none => true

/-- The bytes of the file that a path leads to. Nothing is known outside the directory but that it
lies in others. -/
def read (files : Files) (path : String) : Except ReadFault ByteArray :=
  let names := components path
  if '\x00' ∈ path.toList then .error .nulInName
  else if path.isEmpty then .error .notFound
  else if names.any (255 < ·.utf8ByteSize) || 4096 ≤ path.utf8ByteSize then .error .nameTooLong
  else if names.all (· == "..") then .error .isDirectory
  else if path.startsWith "/" then .error .notFound
  else
    match files.find? fun (name, _) => components name == names with
    | some (_, bytes) => if namesDirectory path then .error .notADirectory else .ok bytes
    | none =>
      if files.any fun (name, _) => names.isPrefixOf (components name) then .error .isDirectory
      else if files.any fun (name, _) => (components name).isPrefixOf names then .error .notADirectory
      else .error .notFound

end Files

end ChartLight.CommandLine
