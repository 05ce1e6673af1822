import RouteContract.Text.Blank

/-! # Module paths

A module is named by its path below the source directory, without extension. A relative import is
followed segment by segment from the directory of the importing module. -/

set_option autoImplicit false

namespace RouteContract.ModulePath

def segments (path : String) : List String := (Text.pieces '/' path.toList).map String.ofList

def step (directory : List String) (segment : String) : List String :=
  match segment with
  | "" => directory
  | "." => directory
  | ".." => directory.dropLast
  | name => directory ++ [name]

def follow (importer source : String) : String :=
  "/".intercalate ((segments source).foldl step (segments importer).dropLast)

def stripSuffix? (suffix path : String) : Option String :=
  (Text.stripPrefix? suffix.toList.reverse path.toList.reverse).map fun cs => String.ofList cs.reverse

def withoutExtension (path : String) : String :=
  ((stripSuffix? ".ts" path).or (stripSuffix? ".js" path)).getD path

/-- The module that an import means: the one at the path, or else the index of the directory there.
Imports that are not relative mean no module. -/
def resolve? (importer source : String) (modules : List String) : Option String :=
  if !source.startsWith "." then none
  else
    let path := withoutExtension (follow importer source)
    let index := path ++ "/index"
    if modules.contains path then some path
    else if modules.contains index then some index
    else none

end RouteContract.ModulePath
