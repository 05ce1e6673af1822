import RouteContract.Entries
import RouteContract.ModulePath
import RouteContract.SourceFile

/-! # Names and the modules they mean

A name in a file means the type that the file declares, or else the one imported last under that
name. Any other name is left to the resolution of types. -/

set_option autoImplicit false

namespace RouteContract

abbrev Names := String → Option (String × String)

namespace SourceFile

def importedNames (f : SourceFile) (modules : List String) (i : Import) :
    List (String × String × String) :=
  match ModulePath.resolve? f.module i.source modules with
  | some target => i.names.map fun n => (n.localName, target, n.name)
  | none => []

def imported (f : SourceFile) (modules : List String) : Entries String (String × String) :=
  Entries.ofList (f.imports.flatMap (f.importedNames modules))

def names (f : SourceFile) (modules : List String) : Names := fun name =>
  if f.declares name then some (f.module, name) else (f.imported modules).find? name

end SourceFile

def Names.target (ns : Names) (name : String) (module : Option String) : String × Option String :=
  match module with
  | some m => (name, some m)
  | none =>
    match ns name with
    | some (m, n) => (n, some m)
    | none => (name, none)

namespace TypeExpr

mutual

def bindNames (ns : Names) : TypeExpr → TypeExpr
  | keyword k => keyword k
  | literal l => literal l
  | array t => array (bindNames ns t)
  | union ts => union (bindAll ns ts)
  | intersection ts => intersection (bindAll ns ts)
  | object ⟨ps, is⟩ => object ⟨bindProperties ns ps, bindIndex ns is⟩
  | ref ⟨name, module, args⟩ =>
    ref ⟨(ns.target name module).1, (ns.target name module).2, bindAll ns args⟩
  | param name => param name
  | unsupported c => unsupported c

def bindAll (ns : Names) : List TypeExpr → List TypeExpr
  | [] => []
  | t :: ts => bindNames ns t :: bindAll ns ts

def bindProperties (ns : Names) : List (Property TypeExpr) → List (Property TypeExpr)
  | [] => []
  | ⟨name, type, optional, default, description, format⟩ :: ps =>
    ⟨name, bindNames ns type, optional, default, description, format⟩ :: bindProperties ns ps

def bindIndex (ns : Names) : List (IndexSignature TypeExpr) → List (IndexSignature TypeExpr)
  | [] => []
  | ⟨keyName, key, value⟩ :: is => ⟨keyName, bindNames ns key, bindNames ns value⟩ :: bindIndex ns is

end

end TypeExpr

def TypeRef.bindNames (ns : Names) (r : TypeRef TypeExpr) : TypeRef TypeExpr :=
  ⟨(ns.target r.name r.module).1, (ns.target r.name r.module).2, TypeExpr.bindAll ns r.args⟩

def Shape.bindNames (ns : Names) (s : Shape TypeExpr) : Shape TypeExpr :=
  ⟨TypeExpr.bindProperties ns s.properties, TypeExpr.bindIndex ns s.index⟩

def DeclKind.bindNames (ns : Names) : DeclKind → DeclKind
  | .object bases shape isClass =>
    .object (bases.map (TypeRef.bindNames ns)) (shape.bindNames ns) isClass
  | .typeAlias target => .typeAlias (target.bindNames ns)
  | .enum members => .enum members

def TypeParam.bindNames (ns : Names) (p : TypeParam) : TypeParam :=
  { p with default := p.default.map (TypeExpr.bindNames ns) }

def Declaration.bindNames (ns : Names) (d : Declaration) : Declaration :=
  { d with kind := d.kind.bindNames ns, params := d.params.map (TypeParam.bindNames ns) }

end RouteContract
