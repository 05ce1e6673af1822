import RouteContract.SourceFile.Classes
import RouteContract.Syntax.Reader

/-! # Source files from text

The statements of a text are read in order and the first fault ends the reading. -/

set_option autoImplicit false

namespace RouteContract

open Syntax
open Number (Binary64)

namespace SourceFile

/-- A file as far as it has been read. Decorators before an `export` are charged to the declaration
read last. -/
structure Progress where
  file : SourceFile
  last : String

namespace Progress

def scope (s : Progress) (declaration : String) (params : List String) : Scope :=
  ⟨s.file.path, s.file.module, declaration, params⟩

def addDeclaration (s : Progress) (d : Declaration) : Progress :=
  { file := { s.file with declarations := s.file.declarations ++ [d] }, last := d.id.name }

end Progress

def descriptionOf (comment : Option String) : Option String :=
  (Documentation.ofComment? comment).bind (·.description)

def paramNames (ps : List TypeParamSyntax) : List String := ps.map (·.name)

/-! ## Interfaces, aliases and enums -/

def baseOf (x : Scope) (base : TypeSyntax × Position) : Except Fault (TypeRef TypeExpr) := do
  match ← typeOf x base.1 with
  | .ref r => return r
  | other => throw (x.unsupported (.base other) base.2)

def interfaceOf (s : Progress) (i : InterfaceSyntax) (comment : Option String) :
    Except Fault Declaration := do
  let x := s.scope i.name (paramNames i.params)
  let params ← typeParamsOf x i.params
  let bases ← i.bases.mapM (baseOf x)
  let shape ← shapeOf x i.members
  return ⟨x.id, .object bases shape false, params, descriptionOf comment, x.locate i.position⟩

def aliasOf (s : Progress) (a : AliasSyntax) (comment : Option String) :
    Except Fault Declaration := do
  let x := s.scope a.name (paramNames a.params)
  let params ← typeParamsOf x a.params
  let target ← typeOf x a.target
  return ⟨x.id, .typeAlias target, params, descriptionOf comment, x.locate a.position⟩

def enumValueOf (x : Scope) (next : Binary64) (m : EnumMemberSyntax) : Except Fault Literal :=
  match m.value with
  | none => .ok (.number next)
  | some e =>
    match e.constant? with
    | some (.string s) => .ok (.string s)
    | some (.bool b) => .ok (.boolean b)
    | some v =>
      match v.toFloat? with
      | some n => .ok (.number n)
      | none => .error (x.unsupported (.computedMember m.key.text) m.position)
    | none => .error (x.unsupported (.computedMember m.key.text) m.position)

def successor (x : Binary64) : Binary64 :=
  (((Binary64.ofInt? 1).bind x.add?)).getD x

def enumMembersOf (x : Scope) (next : Binary64) :
    List EnumMemberSyntax → Except Fault (List EnumMember)
  | [] => .ok []
  | m :: ms => do
    let value ← enumValueOf x next m
    let next := match value with
      | .number n => successor n
      | _ => next
    let rest ← enumMembersOf x next ms
    return ⟨m.key.text, value⟩ :: rest

def enumOf (s : Progress) (e : EnumSyntax) (comment : Option String) :
    Except Fault Declaration := do
  let x := s.scope e.name []
  let members ← enumMembersOf x (Binary64.zero false) e.members
  return ⟨x.id, .enum members, [], descriptionOf comment, x.locate e.position⟩

/-! ## Classes -/

def addClass (s : Progress) (exportDecorators : List Decorator) (c : ClassSyntax)
    (comment : Option String) : Except Fault Progress := do
  let own ← decoratorsOf (s.scope c.name []) c.decorators
  let decorators := exportDecorators ++ own
  let x := s.scope c.name (paramNames c.params)
  let params ← typeParamsOf x c.params
  let members ← ClassMembers.ofMembers x c.members
  let documentation := Documentation.ofComment? comment
  let s := { s with file := { s.file with strays := s.file.strays ++ members.strays } }
  if decorators.isEmpty && members.methods.all (·.decorators.isEmpty) then
    let bases ← heritageOf x c.heritage
    return s.addDeclaration ⟨x.id, .object bases ⟨members.fields, []⟩ true, params,
      documentation.bind (·.description), x.locate c.position⟩
  else
    let controller : DecoratedClass :=
      ⟨c.name, decorators, members.methods, documentation, x.locate c.position⟩
    return { file := { s.file with controllers := s.file.controllers ++ [controller] }
             last := c.name }

/-! ## Whole files -/

def importOf (s : Progress) (i : ImportSyntax) : Import :=
  ⟨i.names.map fun n => ⟨n.name.text, n.renamed⟩, StringPiece.decode i.source,
    (s.scope "" []).locate i.position⟩

def addStatement (s : Progress) : Statement → Except Fault Progress
  | .other => .ok s
  | .importing i => .ok { s with file := { s.file with imports := s.file.imports ++ [importOf s i] } }
  | .declaration exportDecorators d comment => do
    let decorators ← decoratorsOf (s.scope s.last []) exportDecorators
    match d with
    | .interface i => return s.addDeclaration (← interfaceOf s i comment)
    | .typeAlias a => return s.addDeclaration (← aliasOf s a comment)
    | .enum e => return s.addDeclaration (← enumOf s e comment)
    | .class c => addClass s decorators c comment

def ofStatements (path module : String) (ss : List Statement) : Except Fault SourceFile := do
  let s ← ss.foldlM addStatement ⟨.empty path module, ""⟩
  return s.file

def ofText (path module text : String) : Except Fault SourceFile :=
  match statements text with
  | .ok ss => ofStatements path module ss
  | .error p => .error (.syntaxError ⟨path, p.line, p.column⟩)

end SourceFile

end RouteContract
