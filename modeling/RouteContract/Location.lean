/-! # Source locations

Lines and columns count from zero; a column counts the bytes before it on its line. Texts show both
from one. -/

set_option autoImplicit false

namespace RouteContract

structure Location where
  file : String
  line : Nat
  column : Nat
deriving DecidableEq, Repr

namespace Location

def memory : Location := ⟨"", 0, 0⟩

def text (l : Location) : String :=
  if l.file.isEmpty then "<memory>" else s!"{l.file}:{l.line + 1}:{l.column + 1}"

end Location

end RouteContract
