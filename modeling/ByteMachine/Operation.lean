/-
  ByteMachine.Operation — the operation families and their mnemonics.

  Four families share the assembler's vocabulary: two-operand arithmetic, two-operand bitwise
  logic, one-operand operations, and jumps under a condition.  `halt` stands alone.  Each family
  lists its members once (`all`), and the reading of a mnemonic is the first member so called.

  Main statements: `ofMnemonic?_mnemonic` for each family, and `JumpCondition.ofCode_code`.
-/
import ByteMachine.UnknownCode

namespace ByteMachine

/-! ## §1. Arithmetic. -/

/-- Two-operand arithmetic, `op source, destination`. -/
inductive AluOp where
  | move | add | subtract | multiply | divide | compare
  deriving DecidableEq, Repr

namespace AluOp

/-- Every arithmetic operation, in table order. -/
def all : List AluOp := [.move, .add, .subtract, .multiply, .divide, .compare]

/-- The assembler's word for the operation. -/
def mnemonic : AluOp → String
  | .move => "movb"
  | .add => "addb"
  | .subtract => "subb"
  | .multiply => "mulb"
  | .divide => "divb"
  | .compare => "cmpb"

/-- The operation called by this exact text. -/
def ofMnemonic? (text : String) : Option AluOp := all.find? (·.mnemonic == text)

@[simp] theorem ofMnemonic?_mnemonic (op : AluOp) : ofMnemonic? op.mnemonic = some op := by
  cases op <;> rfl

end AluOp

/-! ## §2. Bitwise logic. -/

/-- Two-operand bitwise logic, `op source, destination`. -/
inductive BitwiseOp where
  | or | xor
  deriving DecidableEq, Repr

namespace BitwiseOp

/-- Every bitwise operation, in table order. -/
def all : List BitwiseOp := [.or, .xor]

/-- The assembler's word for the operation. -/
def mnemonic : BitwiseOp → String
  | .or => "orb"
  | .xor => "xorb"

/-- The operation called by this exact text. -/
def ofMnemonic? (text : String) : Option BitwiseOp := all.find? (·.mnemonic == text)

@[simp] theorem ofMnemonic?_mnemonic (op : BitwiseOp) : ofMnemonic? op.mnemonic = some op := by
  cases op <;> rfl

end BitwiseOp

/-! ## §3. One operand. -/

/-- Operations on one operand, `op operand`. -/
inductive UnaryOp where
  | print | increment | decrement
  deriving DecidableEq, Repr

namespace UnaryOp

/-- Every one-operand operation, in table order. -/
def all : List UnaryOp := [.print, .increment, .decrement]

/-- The assembler's word for the operation. -/
def mnemonic : UnaryOp → String
  | .print => "prib"
  | .increment => "incb"
  | .decrement => "decb"

/-- The operation called by this exact text. -/
def ofMnemonic? (text : String) : Option UnaryOp := all.find? (·.mnemonic == text)

@[simp] theorem ofMnemonic?_mnemonic (op : UnaryOp) : ofMnemonic? op.mnemonic = some op := by
  cases op <;> rfl

end UnaryOp

/-! ## §4. Jumps. -/

/-- The condition under which a jump is taken. -/
inductive JumpCondition where
  | always | equal | notEqual | zero | notZero | greater | greaterOrEqual | less | lessOrEqual
  deriving DecidableEq, Repr

namespace JumpCondition

/-- Every condition, in the order of the codes. -/
def all : List JumpCondition :=
  [.always, .equal, .notEqual, .zero, .notZero, .greater, .greaterOrEqual, .less, .lessOrEqual]

/-- The assembler's word for a jump under this condition. -/
def mnemonic : JumpCondition → String
  | .always => "jmp"
  | .equal => "je"
  | .notEqual => "jne"
  | .zero => "jz"
  | .notZero => "jnz"
  | .greater => "jg"
  | .greaterOrEqual => "jge"
  | .less => "jl"
  | .lessOrEqual => "jle"

/-- The condition whose jump is called by this exact text. -/
def ofMnemonic? (text : String) : Option JumpCondition := all.find? (·.mnemonic == text)

@[simp] theorem ofMnemonic?_mnemonic (c : JumpCondition) : ofMnemonic? c.mnemonic = some c := by
  cases c <;> rfl

/-- The byte after the jump prefix. -/
def code : JumpCondition → UInt8
  | .always => 0x10
  | .equal => 0x11
  | .notEqual => 0x12
  | .zero => 0x13
  | .notZero => 0x14
  | .greater => 0x15
  | .greaterOrEqual => 0x16
  | .less => 0x17
  | .lessOrEqual => 0x18

/-- The condition with exactly this code. -/
def ofCode (byte : UInt8) : Except UnknownCode JumpCondition :=
  match all.find? (·.code == byte) with
  | some c => .ok c
  | none => .error ⟨"JumpCondition", byte⟩

@[simp] theorem ofCode_code (c : JumpCondition) : ofCode c.code = .ok c := by
  cases c <;> rfl

/-- Whether the condition holds of the three comparison marks, for any mix of them. -/
def holds (c : JumpCondition) (zero greater less : Bool) : Bool :=
  match c with
  | .always => true
  | .equal | .zero => zero
  | .notEqual | .notZero => !zero
  | .greater => greater
  | .greaterOrEqual => greater || zero
  | .less => less
  | .lessOrEqual => less || zero

end JumpCondition

/-! ## §5. The whole vocabulary. -/

/-- The mnemonic of the instruction that stops the machine. -/
def haltMnemonic : String := "halt"

/-- Every mnemonic of the assembler. -/
def mnemonics : List String :=
  AluOp.all.map (·.mnemonic) ++ BitwiseOp.all.map (·.mnemonic) ++ UnaryOp.all.map (·.mnemonic) ++
    JumpCondition.all.map (·.mnemonic) ++ [haltMnemonic]

/-- Whether the text is one of the assembler's mnemonics. -/
def isMnemonic (text : String) : Bool := mnemonics.contains text

end ByteMachine
