/-
  ByteMachine.Proofs.Interpreter — what a source text means, without bytes.

  The reference for the machine reads the instruction lines of a tree as they stand: mnemonics are
  words, the place in the program is the number of lines before it, and arithmetic is that of the
  integers, narrowed when a register is written.  No offset, opcode or encoding occurs here, and the
  registers are numbers of their own and not those of the machine.

    • `lines`, `lineOf?` — the lines without the labels, and the line a name stands for,
    • `exec` — what one line does,
    • `run` — what lines do one after another.
-/
import ByteMachine.Machine.Flags
import ByteMachine.Proofs.Layout

namespace ByteMachine.Source

open Assembly

/-! ## §1. Lines. -/

/-- The instruction line that a child of a root is, if it is one. -/
def line? : Tree → Option (List Tree)
  | .line nodes => some nodes
  | _ => none

/-- The instruction lines among the children of a root, without the labels. -/
def lines (nodes : List Tree) : List (List Tree) := nodes.filterMap line?

/-- The line that a name stands for, which is the one behind its last definition. -/
def lineOf? (nodes : List Tree) (name : String) : Option Nat :=
  (beforeLast? name nodes).map fun before => (lines before).length

/-! ## §2. States. -/

/-- What a program has computed, and the line it has come to.  Each register holds a number. -/
structure State where
  registers : Register → Int := fun _ => 0
  flags : Machine.Flags := {}
  line : Nat := 0
  halted : Bool := false
  printed : String := ""

/-- Why a line does not lead to a next state. -/
inductive Stop where
  | divisionByZero
  /-- The line is none of the forms of an instruction. -/
  | meaningless
  deriving DecidableEq, Repr

namespace State

/-- The number that a source operand stands for; a literal is narrowed to 32 bits in two's
complement. -/
def operand? (s : State) : Tree → Option Int
  | .register reg => some (s.registers reg)
  | .integer v => some (v.toInt.bmod (2 ^ 32))
  | _ => none

/-- The number that a print shows; of a literal, the sign and the low 32 bits of its magnitude. -/
def shown? (s : State) : Tree → Option Int
  | .register reg => some (s.registers reg)
  | .integer v => some (v.toInt.sign * (v.toInt.natAbs % 2 ^ 32 : Nat))
  | _ => none

/-- On to the next line, with a register written; what does not fit in 32 bits is lost. -/
def write (s : State) (reg : Register) (v : Int) : State :=
  { s with registers := Function.update s.registers reg (v.bmod (2 ^ 32)), line := s.line + 1 }

/-- On to the next line, with a comparison noted. -/
def mark (s : State) (a b : Int) : State :=
  { s with flags := { zero := a = b, greater := b < a, less := a < b }, line := s.line + 1 }

/-- On to the next line, with a number printed. -/
def print (s : State) (v : Int) : State :=
  { s with printed := s.printed ++ (Text.decimal v ++ "\n"), line := s.line + 1 }

/-- On to the next line, with an amount added to a register. -/
def adjust (s : State) (reg : Register) (amount : Int) : State :=
  s.write reg (s.registers reg + amount)

end State

/-! ## §3. One line. -/

/-- A bitwise operation on the 32-bit words of two numbers. -/
def onBits (op : BitVec 32 → BitVec 32 → BitVec 32) (a b : Int) : Int :=
  (op (.ofInt 32 a) (.ofInt 32 b)).toInt

/-- A two-operand word with a source that stands for `v`. -/
def combine (s : State) (word : String) (v : Int) (dst : Register) : Except Stop State :=
  let current := s.registers dst
  match word with
  | "movb" => .ok (s.write dst v)
  | "addb" => .ok (s.write dst (current + v))
  | "subb" => .ok (s.write dst (current - v))
  | "mulb" => .ok (s.write dst (current * v))
  | "divb" => if v = 0 then .error .divisionByZero else .ok (s.write dst (current.tdiv v))
  | "cmpb" => .ok (s.mark current v)
  | "orb" => .ok (s.write dst (onBits (· ||| ·) current v))
  | "xorb" => .ok (s.write dst (onBits (· ^^^ ·) current v))
  | _ => .error .meaningless

/-- Whether a jump word jumps. -/
def jumps? (flags : Machine.Flags) : String → Option Bool
  | "jmp" => some true
  | "je" | "jz" => some flags.zero
  | "jne" | "jnz" => some (!flags.zero)
  | "jg" => some flags.greater
  | "jge" => some (flags.greater || flags.zero)
  | "jl" => some flags.less
  | "jle" => some (flags.less || flags.zero)
  | _ => none

/-- A jump that is taken leads to the line of its name, and one that is not to the next line. -/
def branch (nodes : List Tree) (s : State) (taken : Bool) (name : String) : Except Stop State :=
  if taken then (lineOf? nodes name).elim (.error .meaningless) fun line => .ok { s with line }
  else .ok { s with line := s.line + 1 }

/-- What a line does in a program with these children of the root. -/
def exec (nodes : List Tree) (s : State) : List Tree → Except Stop State
  | [.mnemonic "halt"] => .ok { s with halted := true }
  | [.mnemonic "incb", .register reg] => .ok (s.adjust reg 1)
  | [.mnemonic "decb", .register reg] => .ok (s.adjust reg (-1))
  | [.mnemonic "prib", src] => (s.shown? src).elim (.error .meaningless) fun v => .ok (s.print v)
  | [.mnemonic word, .label name] =>
    (jumps? s.flags word).elim (.error .meaningless) fun taken => branch nodes s taken name
  | [.mnemonic word, src, .register dst] =>
    (s.operand? src).elim (.error .meaningless) fun v => combine s word v dst
  | _ => .error .meaningless

/-! ## §4. Many lines. -/

/-- How far a program came, and what stopped it if something did. -/
structure Run where
  state : State
  stop : Option Stop

/-- Executes at most `limit` lines. -/
def run (nodes : List Tree) : (limit : Nat) → State → Run
  | 0, s => ⟨s, none⟩
  | limit + 1, s =>
    if s.halted then ⟨s, none⟩
    else
      match (lines nodes)[s.line]? with
      | none => ⟨s, none⟩
      | some line =>
        match exec nodes s line with
        | .ok next => run nodes limit next
        | .error stop => ⟨s, some stop⟩

variable {nodes line : List Tree} {s t : State} {limit : Nat}

/-- A line that leads on is followed by the rest of the run. -/
theorem run_of_ok (hh : s.halted = false) (hl : (lines nodes)[s.line]? = some line)
    (he : exec nodes s line = .ok t) : run nodes (limit + 1) s = run nodes limit t := by
  rw [run, hh, if_neg Bool.false_ne_true]
  simp only [hl, he]

/-- A line that stops is the last. -/
theorem run_of_error {stop : Stop} (hh : s.halted = false)
    (hl : (lines nodes)[s.line]? = some line) (he : exec nodes s line = .error stop) :
    run nodes (limit + 1) s = ⟨s, some stop⟩ := by
  rw [run, hh, if_neg Bool.false_ne_true]
  simp only [hl, he]

/-- Behind the last line, and once halted, nothing more is done. -/
theorem run_of_finished (h : s.halted = true ∨ (lines nodes).length ≤ s.line) :
    run nodes (limit + 1) s = ⟨s, none⟩ := by
  rw [run]
  by_cases hh : s.halted = true
  · rw [if_pos hh]
  · rcases h with h | h
    · exact absurd h hh
    · rw [if_neg hh, List.getElem?_eq_none h]

end ByteMachine.Source
