/-
  ByteMachine.Proofs.Meaning — the instruction lines that mean something, and what they mean.

  `Says` lists the forms of a line, one constructor for each, without the tables and checks of
  `Statement.ofLine`.

    • `eq_mnemonic_of_find?` — a word found in a table is the mnemonic of what is found,
    • `ofLine_iff` — a line has a meaning exactly if it has one of the forms.
-/
import ByteMachine.Assembly.Statement

namespace ByteMachine

open Assembly

/-- The node that stands for an operand. -/
def Operand.node : Operand → Tree
  | .register reg => .register reg
  | .immediate v => .integer v

namespace Assembly

/-! ## §1. Words and operands. -/

/-- A word found in a table is the mnemonic of what is found. -/
theorem eq_mnemonic_of_find? {α : Type} {table : List α} {mnemonic : α → String} {text : String}
    {a : α} (h : table.find? (mnemonic · == text) = some a) : text = mnemonic a := by
  have hb := List.find?_some h
  exact (eq_of_beq hb).symm

theorem eq_node_of_operand? {node : Tree} {o : Operand} (h : Statement.operand? node = some o) :
    node = o.node := by
  cases node <;> cases h <;> rfl

/-! ## §2. The forms of a line. -/

/-- A line, node by node, and what it means. -/
inductive Says : List Tree → Statement → Prop where
  | alu (op : AluOp) (src : Operand) (dst : Register) :
      Says [.mnemonic op.mnemonic, src.node, .register dst] (.plain (.alu op src dst))
  | bitwise (op : BitwiseOp) (src : Operand) (dst : Register) :
      Says [.mnemonic op.mnemonic, src.node, .register dst] (.plain (.bitwise op src dst))
  | print (src : Operand) :
      Says [.mnemonic UnaryOp.print.mnemonic, src.node] (.plain (.print src))
  | increment (reg : Register) :
      Says [.mnemonic UnaryOp.increment.mnemonic, .register reg] (.plain (.increment reg))
  | decrement (reg : Register) :
      Says [.mnemonic UnaryOp.decrement.mnemonic, .register reg] (.plain (.decrement reg))
  | jump (condition : JumpCondition) (name : String) :
      Says [.mnemonic condition.mnemonic, .label name] (.jump condition name)
  | halt : Says [.mnemonic haltMnemonic] (.plain .halt)

/-! ## §3. Forms and checks agree. -/

/-- The forms pass the checks. -/
theorem ofLine_of_says {nodes : List Tree} {s : Statement} (h : Says nodes s) :
    Statement.ofLine nodes = .ok s := by
  cases h with
  | alu op src dst => cases op <;> cases src <;> rfl
  | bitwise op src dst => cases op <;> cases src <;> rfl
  | print src => cases src <;> rfl
  | increment reg => rfl
  | decrement reg => rfl
  | jump condition name => cases condition <;> rfl
  | halt => rfl

theorem eq_of_operands? {nodes : List Tree} {src : Operand} {dst : Register}
    (h : Statement.operands? nodes = some (src, dst)) :
    nodes = [src.node, .register dst] := by
  unfold Statement.operands? at h
  split at h
  · obtain ⟨o, ho, he⟩ := Option.map_eq_some_iff.mp h
    cases he
    rw [eq_node_of_operand? ho]
  · cases h

theorem says_of_unary? {op : UnaryOp} {nodes : List Tree} {i : Instruction}
    (h : Statement.unary? op nodes = some i) : Says (.mnemonic op.mnemonic :: nodes) (.plain i) := by
  unfold Statement.unary? at h
  split at h
  · obtain ⟨o, ho, rfl⟩ := Option.map_eq_some_iff.mp h
    rw [eq_node_of_operand? ho]
    exact .print o
  · cases h
    exact .increment _
  · cases h
    exact .decrement _
  · cases h

theorem says_of_plain? {text : String} {nodes : List Tree} {i : Instruction}
    (h : Statement.plain? text nodes = some i) : Says (.mnemonic text :: nodes) (.plain i) := by
  unfold Statement.plain? at h
  split at h
  · rename_i hop
    obtain ⟨⟨src, dst⟩, ho, rfl⟩ := Option.map_eq_some_iff.mp h
    rw [eq_mnemonic_of_find? hop, eq_of_operands? ho]
    exact .alu _ src dst
  · rename_i hop
    obtain ⟨⟨src, dst⟩, ho, rfl⟩ := Option.map_eq_some_iff.mp h
    rw [eq_mnemonic_of_find? hop, eq_of_operands? ho]
    exact .bitwise _ src dst
  · rename_i hop
    rw [eq_mnemonic_of_find? hop]
    exact says_of_unary? h
  · split at h
    · rename_i hh
      cases h
      rw [hh.1, List.isEmpty_iff.mp hh.2]
      exact .halt
    · cases h

theorem says_of_ofLine {nodes : List Tree} {s : Statement} (h : Statement.ofLine nodes = .ok s) :
    Says nodes s := by
  unfold Statement.ofLine at h
  split at h
  · rename_i text rest
    unfold Statement.ofMnemonic at h
    split at h
    · rename_i condition hc
      split at h
      · cases h
        rw [eq_mnemonic_of_find? hc]
        exact .jump condition _
      · cases h
    · split at h
      · cases h
        exact says_of_plain? ‹_›
      · cases h
  · cases h

/-- **A line has a meaning exactly if it has one of the forms.** -/
theorem ofLine_iff {nodes : List Tree} {s : Statement} :
    Statement.ofLine nodes = .ok s ↔ Says nodes s :=
  ⟨says_of_ofLine, ofLine_of_says⟩

end Assembly

end ByteMachine
