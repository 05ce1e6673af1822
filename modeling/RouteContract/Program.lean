import RouteContract.Extraction
import RouteContract.Settings
import RouteContract.SourceFile.Annotations
import RouteContract.SourceFile.OfSyntax
import RouteContract.Text.Utf8

/-! # Programs

A program is a list of source texts, given in memory or found below a directory. It is loaded into a
declaration graph, from which the contract follows. -/

set_option autoImplicit false

namespace RouteContract

namespace Graph

def addFile (modules : List String) (g : Graph) (f : SourceFile) : Except Fault Graph := do
  let ns := f.names modules
  f.strays.forM (StrayDecorators.reject ns)
  let g ← f.declarations.foldlM (fun g d => g.addDeclaration (d.bindNames ns)) g
  f.controllers.foldlM (fun g c => do return g.addController (← c.controller ns f.module)) g

def ofFiles (files : List SourceFile) : Except Fault Graph :=
  files.foldlM (addFile (files.map (·.module))) .empty

end Graph

namespace Program

def languages : List (String × String) := [("typescript", "typescript"), ("ts", "typescript")]

def extensions : List String := ["ts"]

def language (name : String) : Except Fault String :=
  match Entries.find? languages name with
  | some l => .ok l
  | none => .error (.unsupportedLanguage name)

def load (sources : List (String × String)) : Except Fault Graph := do
  Graph.ofFiles (← sources.mapM fun (module, text) => SourceFile.ofText (module ++ ".ts") module text)

/-! ## Directories -/

structure StoredFile where
  path : List String
  bytes : List UInt8

def below (directory : List String) (files : List StoredFile) : List StoredFile :=
  files.filterMap fun f =>
    if directory.isPrefixOf f.path && directory.length < f.path.length then
      some { f with path := f.path.drop directory.length }
    else none

def pathLe : List String → List String → Bool
  | [], _ => true
  | _ :: _, [] => false
  | a :: as, b :: bs => if a = b then pathLe as bs else a < b

def packages : String := "node_modules"

def stem? (fileName : String) : Option String :=
  if (ModulePath.stripSuffix? ".d.ts" fileName).isSome then none
  else (ModulePath.stripSuffix? ".ts" fileName).filter (!·.isEmpty)

def module? (path : List String) : Option String :=
  if path.contains packages then none
  else path.getLast?.bind fun name =>
    (stem? name).map fun stem => "/".intercalate (path.dropLast ++ [stem])

def written (directory : String) (path : List String) : String :=
  directory ++ (if directory.endsWith "/" then "" else "/") ++ "/".intercalate path

def readStored (directory : String) (f : StoredFile) : Except Fault (Option SourceFile) :=
  match module? f.path with
  | none => .ok none
  | some module =>
    let path := written directory f.path
    match Text.Utf8.decode? f.bytes with
    | none => .error (.unreadable path "stream did not contain valid UTF-8")
    | some text => (SourceFile.ofText path module text).map some

def walk (directory : String) (files : List StoredFile) : Except Fault (List StoredFile) :=
  let place := (ModulePath.segments directory).foldl ModulePath.step []
  let found := below place files
  if directory.isEmpty || (found.isEmpty && !place.isEmpty) then
    .error (.unreadable directory "source directory does not exist")
  else if place.getLast? = some packages then .ok []
  else .ok (found.mergeSort fun a b => pathLe a.path b.path)

def loadDirectory (directory : String) (files : List StoredFile) : Except Fault Graph := do
  let read ← (← walk directory files).mapM (readStored directory)
  Graph.ofFiles (read.filterMap fun f => f)

end Program

end RouteContract
