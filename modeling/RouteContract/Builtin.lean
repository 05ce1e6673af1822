import RouteContract.Schema.Basic
import RouteContract.TypeExpr.Basic

/-! # Built-in type names

Names that mean the same in every module, as long as no declaration is bound to them. -/

set_option autoImplicit false

namespace RouteContract

inductive Builtin where
  | primitive (kind : Primitive)
  /-- One argument, the element type. -/
  | array
  /-- Two arguments, the key and the value type. -/
  | record
  /-- One argument, which it stands for. -/
  | promise
  /-- Known, and without a schema. -/
  | unsupported
deriving DecidableEq, Repr

def Builtin.ofName? : String → Option Builtin
  | "Date" => some (.primitive .datetime)
  | "Buffer" | "Uint8Array" | "Readable" | "ReadableStream" | "Blob" => some (.primitive .buffer)
  | "String" => some (.primitive .string)
  | "Number" => some (.primitive .number)
  | "Boolean" => some (.primitive .boolean)
  | "Object" => some (.primitive .object)
  | "Array" | "ReadonlyArray" => some .array
  | "Record" => some .record
  | "Promise" => some .promise
  | "Partial" | "Required" | "Readonly" | "Pick" | "Omit" | "Exclude" | "Extract" | "NonNullable"
  | "ReturnType" | "Parameters" | "InstanceType" | "Awaited" | "Map" | "Set" | "WeakMap" | "WeakSet"
  | "Function" | "Symbol" => some .unsupported
  | _ => none

def Builtin.text : Builtin → String
  | primitive kind => kind.text
  | array => "Array"
  | record => "Record"
  | promise => "Promise"
  | unsupported => "Unsupported"

def Keyword.primitive? : Keyword → Option Primitive
  | .string => some .string
  | .number => some .number
  | .bigint => some .integer
  | .boolean => some .boolean
  | .any => some .any
  | .unknown => some .any
  | .void => some .void
  | .undefined => some .void
  | .never => some .void
  | .null => some .null
  | .object => some .object
  | .symbol => none

end RouteContract
