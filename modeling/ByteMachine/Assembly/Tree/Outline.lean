/-
  ByteMachine.Assembly.Tree.Outline — a tree laid out node by node.

  Each node shows its kind and its content: names between quotes, registers by their number,
  integers in decimal.
-/
import ByteMachine.Assembly.Tree
import ByteMachine.Text.Outline
import ByteMachine.Text.Quoted

namespace ByteMachine.Assembly.Tree

mutual

/-- The outline of a node. -/
def outline : Tree → Text.Outline
  | .root children => .tagged "Root" (.list (outlines children))
  | .label name => .tagged "Label" (.word (Text.quoted name))
  | .line children => .tagged "InstructionLine" (.list (outlines children))
  | .mnemonic word => .tagged "Mnemonic" (.word (Text.quoted word))
  | .register reg => .tagged "Register" (.word ("R" ++ Text.decimal reg.code.toNat))
  | .integer value => .tagged "IntegerValue" (.word (Text.decimal value.toInt))

/-- The outlines of nodes in order. -/
def outlines : List Tree → List Text.Outline
  | [] => []
  | node :: rest => node.outline :: outlines rest

end

end ByteMachine.Assembly.Tree
