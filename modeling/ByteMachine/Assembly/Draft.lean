/-
  ByteMachine.Assembly.Draft — an image in the making.

  A tree is laid out in one pass.  A label takes the offset reached so far; a jump leaves six zero
  bytes and a note of where they stand.  When the tree is exhausted every noted jump is written
  over its own bytes, in the order of the jumps, with the offset its label has by then: the first
  label that nobody defined stops the work.

  Offsets are 32-bit words, as in the jumps themselves, so they are exact below 2³² bytes.
-/
import ByteMachine.Assembly.LabelTable
import ByteMachine.Assembly.Statement
import ByteMachine.Assembly.Tree.OfTokens
import ByteMachine.Image

namespace ByteMachine.Assembly

/-- A jump whose bytes are reserved but not yet written. -/
structure PendingJump where
  offset : UInt32
  condition : JumpCondition
  label : String
  deriving DecidableEq, Repr

/-- The bytes so far, the labels met and the jumps still to be written. -/
structure Draft where
  code : Image := #[]
  labels : LabelTable := {}
  pending : Array PendingJump := #[]

namespace Draft

/-! ## §1. Laying out. -/

/-- The offset reached so far. -/
def offset (d : Draft) : UInt32 := .ofNat d.code.size

/-- Defines a label at the offset reached so far. -/
def define (d : Draft) (name : String) : Draft :=
  { d with labels := d.labels.define name d.offset }

/-- Adds what an instruction line asks for. -/
def add (d : Draft) : Statement → Draft
  | .plain instruction => { d with code := d.code ++ instruction.encode }
  | .jump condition label =>
    { d with
      code := d.code ++ List.replicate Instruction.jumpSize (0 : UInt8)
      pending := d.pending.push ⟨d.offset, condition, label⟩ }

/-- Adds a child of the root. -/
def addNode (d : Draft) : Tree → Except TreeError Draft
  | .label name => .ok (d.define name)
  | .line nodes =>
    match Statement.ofLine nodes with
    | .ok statement => .ok (d.add statement)
    | .error e => .error e
  | node => .error (.unexpectedRootChild node.kind)

/-- The draft of a whole tree. -/
def ofTree : Tree → Except TreeError Draft
  | .root nodes => nodes.foldlM addNode {}
  | node => .error (.notRoot node.kind)

/-! ## §2. Writing the jumps. -/

/-- The image with some bytes from an offset on replaced. -/
def overwrite (code : Image) (offset : Nat) : List UInt8 → Image
  | [] => code
  | byte :: rest => overwrite (code.setIfInBounds offset byte) (offset + 1) rest

/-- Writes a pending jump over its reserved bytes. -/
def patch (labels : LabelTable) (code : Image) (jump : PendingJump) :
    Except AssemblyError Image :=
  match labels.find? jump.label with
  | some target =>
    .ok (overwrite code jump.offset.toNat (Instruction.jump jump.condition target).encode)
  | none => .error (.undefinedLabel jump.label)

/-- The finished image. -/
def finish (d : Draft) : Except AssemblyError Image :=
  d.pending.toList.foldlM (patch d.labels) d.code

end Draft

/-! ## §3. Assembling. -/

/-- The image of a tree. -/
def Tree.assemble (tree : Tree) : Except AssemblyError Image :=
  match Draft.ofTree tree with
  | .ok draft => draft.finish
  | .error e => .error (.tree e)

/-- The image of a source text. -/
def assemble (source : String) : Except AssemblyError Image := do
  (← Tree.ofSource source).assemble

end ByteMachine.Assembly
