/-
  ByteMachine.Assembly.Trail — what assembling tells about itself.

  The entries are computed beside the work and not by it: each function here follows the stage of
  the same input, and stops telling where that stage stops working.  An entry on a stage as a
  whole is told when the stage is done, so a failed stage leaves only the entries on its parts.
-/
import ByteMachine.Assembly.Draft
import ByteMachine.Log

namespace ByteMachine.Assembly.Trail

open Log (Entry)

/-- A number as a value of an entry. -/
def shown (n : Nat) : String := Text.decimal n

/-! ## §1. Reading. -/

/-- The entry on the tokens of a source. -/
def scanned (tokens : List Token) : Entry :=
  ⟨.trace, .scanner, "lexed source", [("count", shown tokens.length)]⟩

/-- The entry on the tree of a source. -/
def read (tree : Tree) : Entry :=
  ⟨.trace, .grammar, "parsed source", [("nodes", shown tree.children.length)]⟩

/-- The entries on reading a source. -/
def ofReading (source : String) : List Entry :=
  match scan source with
  | .error _ => []
  | .ok tokens =>
    match Tree.ofTokens tokens with
    -- the tokens are there, and no tree comes of them
    | .error _ => [scanned tokens]
    | .ok tree => [scanned tokens, read tree]

/-! ## §2. Laying out. -/

/-- The entry on a label that was defined before. -/
def redefined (name : String) (earlier offset : UInt32) : Entry :=
  ⟨.trace, .labels, "label redefined",
    [("name", name), ("previous", shown earlier.toNat), ("offset", shown offset.toNat)]⟩

/-- The entries on a definition, told before it is made. -/
def ofDefinition (d : Draft) (name : String) : List Entry :=
  ⟨.trace, .layout, "label", [("name", name), ("offset", shown d.offset.toNat)]⟩ ::
    ((d.labels.find? name).map (redefined name · d.offset)).toList

/-- The entries on a child of the root. -/
def ofNode (d : Draft) : Tree → List Entry
  | .label name => ofDefinition d name
  | _ => []

/-- The entry on a draft that is laid out. -/
def laidOut (d : Draft) : Entry :=
  ⟨.debug, .layout, "emitted instructions",
    [("bytes", shown d.code.size), ("labels", shown d.labels.size),
      ("patches", shown d.pending.size)]⟩

/-- The entries on the jumps of a draft, up to the first whose label is not defined. -/
def ofJumps (labels : LabelTable) : List PendingJump → List Entry
  | [] => []
  | jump :: rest =>
    match labels.find? jump.label with
    | some target =>
      ⟨.trace, .layout, "patching jump",
        [("label", jump.label), ("offset", shown jump.offset.toNat),
          ("target", shown target.toNat)]⟩ :: ofJumps labels rest
    | none => []

/-- The entries on the children of the root, behind a draft of those before. -/
def ofNodes (d : Draft) : List Tree → List Entry
  | [] => laidOut d :: ofJumps d.labels d.pending.toList
  | node :: rest =>
    ofNode d node ++
      match d.addNode node with
      | .ok next => ofNodes next rest
      | .error _ => []

/-- The entries on laying out a tree. -/
def ofLayout : Tree → List Entry
  | .root nodes => ofNodes {} nodes
  | _ => []

/-! ## §3. Assembling. -/

/-- The entry on an image. -/
def assembled (image : Image) : Entry :=
  ⟨.debug, .assembler, "assembled", [("bytes", shown image.size)]⟩

/-- The entries on assembling a source. -/
def ofAssembling (source : String) : List Entry :=
  ofReading source ++
    match Tree.ofSource source with
    | .error _ => []
    | .ok tree =>
      ofLayout tree ++
        match tree.assemble with
        | .ok image => [assembled image]
        | .error _ => []

end ByteMachine.Assembly.Trail
