/-
  ByteMachine.Assembly.Tree — the tree of a source text, and its rendering as source.

  A tree read from source is a root that holds labels and instruction lines in source order; a
  line starts with its mnemonic and holds its operands without the commas.  The type admits every
  other nesting as well, so that whoever builds a tree by hand is told what is wrong with it
  instead of being kept from writing it.
-/
import ByteMachine.Register
import ByteMachine.Text.Decimal

namespace ByteMachine.Assembly

/-! ## §1. Nodes. -/

/-- A node of a syntax tree.  A `label` defines a jump target in a root and names one in a line. -/
inductive Tree where
  | root (children : List Tree)
  | label (name : String)
  | line (children : List Tree)
  | mnemonic (text : String)
  | register (reg : Register)
  | integer (value : Int64)
  deriving Repr

namespace Tree

/-- What a node is, without its content. -/
inductive Kind where
  | root | label | line | mnemonic | register | integer
  deriving DecidableEq, Repr

/-- The kind in words. -/
def Kind.text : Kind → String
  | .root => "root"
  | .label => "label"
  | .line => "instruction line"
  | .mnemonic => "mnemonic"
  | .register => "register"
  | .integer => "integer value"

/-- What the node is. -/
def kind : Tree → Kind
  | .root _ => .root
  | .label _ => .label
  | .line _ => .line
  | .mnemonic _ => .mnemonic
  | .register _ => .register
  | .integer _ => .integer

/-- The nodes directly below; only roots and lines have any. -/
def children : Tree → List Tree
  | .root children => children
  | .line children => children
  | _ => []

/-! ## §2. Rendering as source. -/

/-- A line from the texts of its nodes: a blank after the mnemonic, commas between operands. -/
def joinLine : List String → String
  | [] => ""
  | [word] => word
  | word :: operands => word ++ " " ++ ", ".intercalate operands

mutual

/-- The node as source text.  A root gives each child a line of its own and closes the labels
directly below it with a colon. -/
def text : Tree → String
  | .root children => String.join (rootLines children)
  | .label name => "@" ++ name
  | .line children => joinLine (texts children)
  | .mnemonic word => word
  | .register reg => reg.name
  | .integer value => "#" ++ Text.decimal value.toInt

/-- The texts of the nodes in order. -/
def texts : List Tree → List String
  | [] => []
  | node :: rest => node.text :: texts rest

/-- The lines of a root's children, each with its line end. -/
def rootLines : List Tree → List String
  | [] => []
  | node :: rest =>
    (match node with
      | .label name => "@" ++ name ++ ":\n"
      | _ => node.text ++ "\n") :: rootLines rest

end

end Tree

end ByteMachine.Assembly
