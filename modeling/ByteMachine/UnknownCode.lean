/-
  ByteMachine.UnknownCode — the failure of reading a byte against a closed table of codes.

  Registers and jump conditions are numbered by small tables of byte codes.  A byte outside the
  table is reported with the table's name and the offending value in decimal.
-/

namespace ByteMachine

/-- A byte that stands for no member of the table called `table`. -/
structure UnknownCode where
  table : String
  code : UInt8
  deriving DecidableEq, Repr

/-- The wording of the failure; the value is written in decimal. -/
def UnknownCode.message (e : UnknownCode) : String :=
  s!"No discriminant in enum `{e.table}` matches the value `{e.code.toNat}`"

end ByteMachine
