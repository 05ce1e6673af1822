import RouteContract.Declaration
import RouteContract.Documentation

/-! # Source files

What one source file says about types and operations. Decorators are kept as written, and names are
not yet tied to the modules that declare them. -/

set_option autoImplicit false

namespace RouteContract

inductive Argument where
  | constant (value : Json)
  | text (text : String)

structure Decorator where
  name : String
  typeArgs : List TypeExpr
  args : List Argument
  location : Location

structure DecoratedParameter where
  name : String
  decorators : List Decorator
  type : Option TypeExpr
  optional : Bool
  default : Option Initializer
  location : Location

structure DecoratedMethod where
  name : String
  decorators : List Decorator
  parameters : List DecoratedParameter
  returns : Option TypeExpr
  documentation : Option Documentation
  location : Location

structure DecoratedClass where
  name : String
  decorators : List Decorator
  methods : List DecoratedMethod
  documentation : Option Documentation
  location : Location

inductive StrayTarget where
  | field
  | constructor
  /-- A method that is not public, or static, or an accessor. -/
  | hiddenMethod
deriving DecidableEq, Repr

def StrayTarget.text : StrayTarget → String
  | field => "property"
  | constructor => "constructor"
  | hiddenMethod => "non-public, static or accessor method"

structure StrayDecorators where
  target : StrayTarget
  decorators : List Decorator

structure ImportedName where
  name : String
  /-- The name in the importing file, when it differs. -/
  renamed : Option String
deriving DecidableEq, Repr

def ImportedName.localName (n : ImportedName) : String := n.renamed.getD n.name

structure Import where
  names : List ImportedName
  source : String
  location : Location

structure SourceFile where
  path : String
  module : String
  imports : List Import
  declarations : List Declaration
  controllers : List DecoratedClass
  strays : List StrayDecorators

namespace SourceFile

def empty (path module : String) : SourceFile := ⟨path, module, [], [], [], []⟩

def declares (f : SourceFile) (name : String) : Bool := f.declarations.any (·.id.name = name)

end SourceFile

end RouteContract
