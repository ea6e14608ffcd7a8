/-
  ByteMachine.Opcode — the first byte of an instruction, and the byte behind the bitwise prefix.

  A register-to-register operation owns a block of sixteen bytes, four per destination with the
  source varying fastest; an operation on an immediate owns a block of four, one per destination.
  Reading tries the families in table order and the blocks of a family in that order.

  Main statements: `Opcode.ofByte?_toByte` and `BitwiseCode.ofByte?_toByte`.
-/
import ByteMachine.Operation
import ByteMachine.Register

namespace ByteMachine

/-! ## §1. Blocks of bytes. -/

/-- The byte of a register pair in the block at `base`: four bytes per destination. -/
def pairByte (base : UInt8) (src dst : Register) : UInt8 := base + dst.code * 4 + src.code

/-- The position of `byte` in the block of `size` bytes at `base`. -/
def blockPosition? (base size byte : UInt8) : Option UInt8 :=
  if base ≤ byte ∧ byte - base < size then some (byte - base) else none

/-- The source and destination at a position of a block of sixteen. -/
def pairAt (position : UInt8) : Register × Register :=
  (.ofLowBits position, .ofLowBits (position / 4))

/-! ## §2. Where each operation lives. -/

/-- The first byte of the operation's register-to-register block. -/
def AluOp.registerBase : AluOp → UInt8
  | .move => 0x10
  | .add => 0x20
  | .subtract => 0x30
  | .multiply => 0x40
  | .divide => 0x70
  | .compare => 0x80

/-- The first byte of the operation's block for immediates. -/
def AluOp.immediateBase : AluOp → UInt8
  | .move => 0x50
  | .add => 0x54
  | .subtract => 0x58
  | .multiply => 0x5c
  | .divide => 0x60
  | .compare => 0x64

/-- The first byte of the operation's register-to-register block, behind the bitwise prefix. -/
def BitwiseOp.registerBase : BitwiseOp → UInt8
  | .or => 0x14
  | .xor => 0x28

/-- The first byte of the operation's block for immediates, behind the bitwise prefix. -/
def BitwiseOp.immediateBase : BitwiseOp → UInt8
  | .or => 0x10
  | .xor => 0x24

/-- The base of the block that increments a register. -/
def incrementBase : UInt8 := 0x90

/-- The base of the block that decrements a register. -/
def decrementBase : UInt8 := 0x94

/-- The base of the block that prints a register. -/
def printRegisterBase : UInt8 := 0xb0

/-- The byte that prints an immediate. -/
def printImmediateByte : UInt8 := 0xbf

/-- The byte that opens every jump. -/
def jumpPrefix : UInt8 := 0xc0

/-- The byte that opens every bitwise operation. -/
def bitwisePrefix : UInt8 := 0xc1

/-- The byte that stops the machine. -/
def haltByte : UInt8 := 0xf4

/-! ## §3. The first byte. -/

/-- What the first byte of an instruction says. -/
inductive Opcode where
  | aluRegister (op : AluOp) (src dst : Register)
  | aluImmediate (op : AluOp) (dst : Register)
  | increment (reg : Register)
  | decrement (reg : Register)
  | printRegister (reg : Register)
  | printImmediate
  | jump
  | bitwise
  | halt
  deriving DecidableEq, Repr

namespace Opcode

/-- The byte that says so. -/
def toByte : Opcode → UInt8
  | .aluRegister op src dst => pairByte op.registerBase src dst
  | .aluImmediate op dst => op.immediateBase + dst.code
  | .increment reg => incrementBase + reg.code
  | .decrement reg => decrementBase + reg.code
  | .printRegister reg => printRegisterBase + reg.code
  | .printImmediate => printImmediateByte
  | .jump => jumpPrefix
  | .bitwise => bitwisePrefix
  | .halt => haltByte

/-- What the byte says within the two blocks of one arithmetic operation. -/
def ofAlu? (op : AluOp) (byte : UInt8) : Option Opcode :=
  match blockPosition? op.registerBase 16 byte with
  | some position => some (.aluRegister op (pairAt position).1 (pairAt position).2)
  | none => (blockPosition? op.immediateBase 4 byte).map (.aluImmediate op <| .ofLowBits ·)

/-- What the byte says within the block of four at `base`. -/
def ofBlock? (base : UInt8) (make : Register → Opcode) (byte : UInt8) : Option Opcode :=
  (blockPosition? base 4 byte).map (make <| .ofLowBits ·)

/-- What the byte says outside the arithmetic blocks. -/
def ofOther? (byte : UInt8) : Option Opcode :=
  if byte = printImmediateByte then some .printImmediate
  else if byte = jumpPrefix then some .jump
  else if byte = bitwisePrefix then some .bitwise
  else if byte = haltByte then some .halt
  else
    ofBlock? incrementBase .increment byte <|> ofBlock? decrementBase .decrement byte <|>
      ofBlock? printRegisterBase .printRegister byte

/-- What a first byte says, if anything. -/
def ofByte? (byte : UInt8) : Option Opcode :=
  AluOp.all.findSome? (ofAlu? · byte) <|> ofOther? byte

@[simp] theorem ofByte?_toByte (opcode : Opcode) : ofByte? opcode.toByte = some opcode := by
  cases opcode with
  | aluRegister op src dst => cases op <;> cases src <;> cases dst <;> rfl
  | aluImmediate op dst => cases op <;> cases dst <;> rfl
  | increment reg => cases reg <;> rfl
  | decrement reg => cases reg <;> rfl
  | printRegister reg => cases reg <;> rfl
  | printImmediate => rfl
  | jump => rfl
  | bitwise => rfl
  | halt => rfl

end Opcode

/-! ## §4. The byte behind the bitwise prefix. -/

/-- What the byte behind the bitwise prefix says. -/
inductive BitwiseCode where
  | register (op : BitwiseOp) (src dst : Register)
  | immediate (op : BitwiseOp) (dst : Register)
  deriving DecidableEq, Repr

namespace BitwiseCode

/-- The byte that says so. -/
def toByte : BitwiseCode → UInt8
  | .register op src dst => pairByte op.registerBase src dst
  | .immediate op dst => op.immediateBase + dst.code

/-- What the byte says within the two blocks of one bitwise operation. -/
def ofBitwise? (op : BitwiseOp) (byte : UInt8) : Option BitwiseCode :=
  match blockPosition? op.registerBase 16 byte with
  | some position => some (.register op (pairAt position).1 (pairAt position).2)
  | none => (blockPosition? op.immediateBase 4 byte).map (.immediate op <| .ofLowBits ·)

/-- What a byte behind the bitwise prefix says, if anything. -/
def ofByte? (byte : UInt8) : Option BitwiseCode :=
  BitwiseOp.all.findSome? (ofBitwise? · byte)

@[simp] theorem ofByte?_toByte (code : BitwiseCode) : ofByte? code.toByte = some code := by
  cases code with
  | register op src dst => cases op <;> cases src <;> cases dst <;> rfl
  | immediate op dst => cases op <;> cases dst <;> rfl

end BitwiseCode

end ByteMachine
