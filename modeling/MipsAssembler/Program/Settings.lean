/-!
# Settings of an assembly run
-/

namespace MipsAssembler

/-- The part of a source text in which labels are bound to addresses. -/
inductive LabelScope
  | everywhere
  /-- What follows the first `.text` directive, if there is one. -/
  | afterText
  deriving DecidableEq

structure Settings where
  /-- The address of the first instruction. -/
  baseAddress : UInt32 := 0x00400000
  /-- The label whose code is encoded. -/
  entryLabel : String := "main"
  labelScope : LabelScope := .everywhere
  deriving DecidableEq

end MipsAssembler
