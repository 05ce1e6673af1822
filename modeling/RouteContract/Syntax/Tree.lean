import RouteContract.Syntax.Cursor

/-! # Syntax trees

What a source text says, as far as declarations, decorators and constants go. Whatever else a
program contains has been read and found well formed, and is left out. A comment counts as a member
of a list of types, and it hides the first type of an annotation that it stands before. -/

set_option autoImplicit false

namespace RouteContract.Syntax

inductive StringPiece where
  | plain (text : String)
  | escape (text : String)
deriving DecidableEq, Repr

inductive Key where
  | quoted (pieces : List StringPiece)
  | plain (text : String)

/-- An expression, in detail only where it may be a constant or name a base class. -/
inductive Expr where
  | string (pieces : List StringPiece)
  /-- A template without substitutions. -/
  | template (pieces : List StringPiece)
  | number (text : String)
  | boolean (b : Bool)
  | null
  | unary (operator : String) (arg : Expr)
  | array (items : List Expr)
  /-- An object of pairs only. -/
  | object (pairs : List (Key × Expr))
  /-- An expression in parentheses or with a type added. -/
  | wrapped (inner : Expr)
  | name (text : String)
  | member (property : String)
  | other (kind : String)

instance : Inhabited Expr := ⟨.null⟩

structure PropertySyntax (τ : Type) where
  key : Key
  optional : Bool
  type : Option τ
  /-- The comment right before it. -/
  comment : Option String

inductive MemberSyntax (τ : Type) where
  | property (p : PropertySyntax τ)
  | index (keyName : String) (key value : τ)
  | mapped (position : Position)

inductive TypeSyntax where
  | predefined (text : String)
  | name (text : String)
  /-- A dotted name, of which the last part counts. -/
  | dotted (last : String)
  | generic (name : String) (args : List TypeSyntax)
  | array (element : TypeSyntax)
  | wrapped (inner : TypeSyntax)
  | union (members : List TypeSyntax)
  | intersection (members : List TypeSyntax)
  | literal (value : Expr) (text : String)
  | object (members : List (MemberSyntax TypeSyntax))
  | comment
  | other (kind : String)

instance : Inhabited TypeSyntax := ⟨.comment⟩

structure ArgumentSyntax where
  value : Expr
  text : String

structure DecoratorSyntax where
  name : String
  typeArgs : List TypeSyntax
  args : List ArgumentSyntax
  position : Position

structure TypeParamSyntax where
  name : String
  default : Option TypeSyntax

structure ParameterSyntax where
  decorators : List DecoratorSyntax
  accessibility : Option String
  /-- The pattern as written. -/
  pattern : String
  optional : Bool
  type : Option TypeSyntax
  value : Option ArgumentSyntax
  position : Position

structure MethodSyntax where
  decorators : List DecoratorSyntax
  /-- The words and signs before the name. -/
  modifiers : List String
  key : Key
  parameters : List ParameterSyntax
  returns : Option TypeSyntax
  /-- The comment right before it, decorators aside. -/
  comment : Option String
  position : Position

structure FieldSyntax where
  decorators : List DecoratorSyntax
  modifiers : List String
  key : Key
  optional : Bool
  type : Option TypeSyntax
  value : Option ArgumentSyntax
  comment : Option String

inductive ClassMemberSyntax where
  | method (m : MethodSyntax)
  | field (f : FieldSyntax)
  /-- A method without a body. -/
  | signature (parameters : List ParameterSyntax)

inductive HeritageSyntax where
  | base (value : Expr) (position : Position)
  | args (types : List TypeSyntax)
  | comment (position : Position)

structure ClassSyntax where
  decorators : List DecoratorSyntax
  name : String
  params : List TypeParamSyntax
  heritage : List HeritageSyntax
  members : List ClassMemberSyntax
  position : Position

structure InterfaceSyntax where
  name : String
  params : List TypeParamSyntax
  bases : List (TypeSyntax × Position)
  members : List (MemberSyntax TypeSyntax)
  position : Position

structure AliasSyntax where
  name : String
  params : List TypeParamSyntax
  target : TypeSyntax
  position : Position

structure EnumMemberSyntax where
  key : Key
  value : Option Expr
  position : Position

structure EnumSyntax where
  name : String
  members : List EnumMemberSyntax
  position : Position

inductive DeclarationSyntax where
  | interface (i : InterfaceSyntax)
  | class (c : ClassSyntax)
  | typeAlias (a : AliasSyntax)
  | enum (e : EnumSyntax)

structure ImportNameSyntax where
  name : Key
  renamed : Option String

structure ImportSyntax where
  names : List ImportNameSyntax
  source : List StringPiece
  position : Position

inductive Statement where
  | importing (i : ImportSyntax)
  /-- A declaration with the decorators before its `export` and the comment before all of it. -/
  | declaration (exportDecorators : List DecoratorSyntax) (d : DeclarationSyntax)
      (comment : Option String)
  | other

end RouteContract.Syntax
