import RouteContract.Location
import RouteContract.TypeExpr.Notation
import RouteContract.Json.Printer

/-! # Faults

A fault ends a run without a contract. Each constructor is one cause; `message` words it, `code`
names its class, and `help` tells what to do about it. -/

set_option autoImplicit false

namespace RouteContract

inductive Construct where
  | kind (name : String)
  | symbol
  | booleanMember (name : String)
  | computedMember (name : String)
  | utilityType (name : String)
  | indexKey (key : TypeExpr)
  | severalIndexSignatures
  | mappedType
  | base (extended : TypeExpr)
  | heritage (node : String)

def Construct.text : Construct → String
  | kind name => name
  | symbol => "symbol type"
  | booleanMember name => s!"boolean enum member '{name}'"
  | computedMember name => s!"computed enum member '{name}'"
  | utilityType name => s!"utility type '{name}'"
  | indexKey key => s!"index signature with key type '{key.text}'"
  | severalIndexSignatures => "multiple index signatures"
  | mappedType => "mapped type"
  | base extended => s!"extending '{extended.text}'"
  | heritage node => s!"'{node}' in extends clause"

inductive AnnotationFault where
  | tooManyArguments (limit found : Nat)
  | notLiteral (index : Nat) (text : String)
  | notString (index : Nat) (value : Json)
  | defaultSuccess
  | missingOperationId
  | notScopes (value : Json)
  | notScope (value : Json)
  | badStatus (value : Json)
  | badStatusText (text : String)
  | missingStatus
  | notScheme (value : Json)
  | missingScheme
  | secondVerb (operation : String)
  | notResponse

def AnnotationFault.text : AnnotationFault → String
  | tooManyArguments limit found => s!"expected at most {limit} argument(s), found {found}"
  | notLiteral index text => s!"argument {index} must be a literal, found '{text}'"
  | notString index value => s!"argument {index} must be a string, found {value.compact}"
  | defaultSuccess => "success status must be a numeric code"
  | missingOperationId => "missing operation id"
  | notScopes value => s!"expected a list of scopes, found {value.compact}"
  | notScope value => s!"scope must be a string, found {value.compact}"
  | badStatus value => s!"invalid status code {value.compact}"
  | badStatusText text => s!"invalid status code '{text}'"
  | missingStatus => "missing status code"
  | notScheme value => s!"expected a scheme name or scheme map, found {value.compact}"
  | missingScheme => "missing security scheme"
  | secondVerb operation => s!"{operation} already has an HTTP verb"
  | notResponse => "expected a response annotation"

inductive BindingConflict where
  | twoSources (first second : String)
  | placeholderTaken (placeholder other : String)

def BindingConflict.text : BindingConflict → String
  | twoSources first second => s!"both @{first} and @{second} are present"
  | placeholderTaken placeholder other =>
    "placeholder '\x7b" ++ placeholder ++ "\x7d' is already bound to '" ++ other ++ "'"

inductive Untyped where
  | parameter (name operation : String)
  | returnType (operation : String)

def Untyped.text : Untyped → String
  | parameter name operation => s!"parameter '{name}' of {operation}"
  | returnType operation => s!"return type of {operation}"

inductive Fault where
  | unreadable (path message : String)
  | syntaxError (place : Location)
  | unsupportedAlias (declaration : String) (place : Location)
  | unsupportedConstruct (declaration : String) (construct : Construct) (place : Location)
  | unresolved (name declaration : String) (place : Location)
  | ambiguous (name : String) (candidates : List String) (place : Location)
  | unboundParameter (param declaration : String)
  | arity (declaration : String) (expected found : Nat)
  | nameCollision (name first second : String)
  | dangling (name : String)
  | inheritanceCycle (cycle : List String)
  | invalidBase (declaration base : String)
  | unrecognized (name : String) (place : Location)
  | misplaced (name target : String) (place : Location)
  | invalidArguments (name : String) (cause : AnnotationFault) (place : Location)
  | conflictingBinding (operation parameter : String) (cause : BindingConflict) (place : Location)
  | duplicateBody (operation : String) (place : Location)
  | unboundPlaceholder (operation placeholder : String) (place : Location)
  | missingPlaceholder (operation parameter path : String) (place : Location)
  | optionalPathParameter (operation parameter : String) (place : Location)
  | missingType (what : Untyped) (place : Location)
  | duplicateOperation (verb path first second : String)
  | unsupportedLanguage (language : String)

namespace Fault

def message : Fault → String
  | unreadable path message => s!"Failed to read file '{path}': {message}"
  | syntaxError l => s!"Syntax error at {l.text}"
  | unsupportedAlias declaration l => s!"Unsupported type alias '{declaration}' at {l.text}"
  | unsupportedConstruct declaration construct _ =>
    s!"Unsupported type construct in '{declaration}': {construct.text}"
  | unresolved name declaration _ =>
    s!"Cannot resolve type reference '{name}' used in '{declaration}'"
  | ambiguous name candidates _ =>
    s!"Type reference '{name}' is ambiguous: declared in " ++ ", ".intercalate candidates
  | unboundParameter param declaration =>
    s!"Type parameter '{param}' is not bound while resolving '{declaration}'"
  | arity declaration expected found =>
    s!"'{declaration}' expects {expected} type argument(s) but got {found}"
  | nameCollision name first second =>
    s!"Schema name '{name}' is claimed by both '{first}' and '{second}'"
  | dangling name => s!"Schema reference '{name}' does not resolve to any registered definition"
  | inheritanceCycle cycle => "Inheritance cycle detected: " ++ " -> ".intercalate cycle
  | invalidBase declaration base =>
    s!"'{declaration}' extends '{base}', which is not an interface or class"
  | unrecognized name l => s!"Unrecognized annotation '@{name}' at {l.text}"
  | misplaced name target l =>
    s!"Annotation '@{name}' cannot be placed on a {target} ({l.text})"
  | invalidArguments name cause l => s!"Invalid arguments for '@{name}' at {l.text}: {cause.text}"
  | conflictingBinding operation parameter cause _ =>
    s!"Parameter '{parameter}' of {operation} has conflicting bindings: {cause.text}"
  | duplicateBody operation _ => s!"{operation} declares more than one request body"
  | unboundPlaceholder operation placeholder _ =>
    "Path placeholder '\x7b" ++ placeholder ++ "\x7d' in " ++ operation ++ " has no matching parameter"
  | missingPlaceholder operation parameter path _ =>
    s!"Path parameter '{parameter}' of {operation} does not appear in the route '{path}'"
  | optionalPathParameter operation parameter _ =>
    s!"Path parameter '{parameter}' of {operation} cannot be optional"
  | missingType what l => s!"Missing type annotation for {what.text} at {l.text}"
  | duplicateOperation verb path first second =>
    s!"Duplicate operation {verb} {path} (declared by {first} and {second})"
  | unsupportedLanguage language => s!"Unsupported language: {language}"

def code : Fault → String
  | unreadable .. => "io::read_error"
  | syntaxError .. => "parse::syntax_error"
  | unsupportedAlias .. => "types::unsupported_alias"
  | unsupportedConstruct .. => "types::unsupported_construct"
  | unresolved .. => "types::unknown_reference"
  | ambiguous .. => "types::ambiguous_reference"
  | unboundParameter .. => "types::unbound_parameter"
  | arity .. => "types::arity_mismatch"
  | nameCollision .. => "types::name_collision"
  | dangling .. => "types::dangling_reference"
  | inheritanceCycle .. => "types::inheritance_cycle"
  | invalidBase .. => "types::invalid_base"
  | unrecognized .. => "annotations::unrecognized"
  | misplaced .. => "annotations::misplaced"
  | invalidArguments .. => "annotations::invalid_arguments"
  | conflictingBinding .. => "controllers::conflicting_binding"
  | duplicateBody .. => "controllers::duplicate_body"
  | unboundPlaceholder .. => "controllers::unbound_placeholder"
  | missingPlaceholder .. => "controllers::missing_placeholder"
  | optionalPathParameter .. => "controllers::optional_path_parameter"
  | missingType .. => "controllers::missing_type"
  | duplicateOperation .. => "controllers::duplicate_operation"
  | unsupportedLanguage .. => "frontend::unsupported_language"

def help? : Fault → Option String
  | unsupportedAlias .. =>
    some "Type aliases are only supported as unions of string literals, e.g. type Status = 'open' | 'closed'. Use an interface for object shapes."
  | unsupportedConstruct .. =>
    some "Only primitives, arrays, literal unions, enums, interfaces, classes, intersections and simple index signatures can be described"
  | ambiguous .. =>
    some "Import the declaration explicitly so the reference can be tied to one module"
  | nameCollision .. =>
    some "Rename one of the declarations; schema documents index definitions by name only"
  | unrecognized .. =>
    some "Unknown decorators are rejected so the generated schema never silently drops API surface"
  | duplicateBody .. =>
    some "Use either a single @Body parameter or several @BodyProp/unannotated parameters, not both"
  | missingType .. => some "Every bound parameter and every route method needs an explicit type"
  | _ => none

def location? : Fault → Option Location
  | syntaxError l => some l
  | unsupportedAlias _ l => some l
  | unsupportedConstruct _ _ l => some l
  | unresolved _ _ l => some l
  | ambiguous _ _ l => some l
  | unrecognized _ l => some l
  | misplaced _ _ l => some l
  | invalidArguments _ _ l => some l
  | conflictingBinding _ _ _ l => some l
  | duplicateBody _ l => some l
  | unboundPlaceholder _ _ l => some l
  | missingPlaceholder _ _ _ l => some l
  | optionalPathParameter _ _ l => some l
  | missingType _ l => some l
  | _ => none

end Fault

end RouteContract
