/-
  ByteMachine.Proofs.Reduction — what an immediate keeps of a literal.

  An immediate holds a sign and the low 32 bits of a magnitude, so a literal `v` comes back as
  `sign v * (|v| mod 2³²)` (`Immediate.reduce`).  Nothing a register can see is lost by that:

    • `toInt_reduce` — the number that comes back, with no bound on the literal,
    • `signed_magnitude` — sign and magnitude of a literal denote its reduction,
    • `toInt32_reduce` — a literal and its reduction narrow to the same 32-bit word.
-/
import Mathlib
import ByteMachine.Instruction

namespace ByteMachine

/-! ## §1. Literals. -/

namespace Immediate

/-- The literal with the bits of its magnitude from the 32nd on dropped; its sign stays. -/
def reduce (v : Int64) : Int64 := .ofInt (v.toInt.sign * (v.toInt.natAbs % 2 ^ 32 : Nat))

/-- **The number that a literal comes back as.** -/
theorem toInt_reduce (v : Int64) :
    (reduce v).toInt = v.toInt.sign * (v.toInt.natAbs % 2 ^ 32 : Nat) := by
  -- below 2³² the product is a 64-bit number again, so the word keeps it
  have hm : v.toInt.natAbs % 2 ^ 32 < 2 ^ 32 := Nat.mod_lt _ (by decide)
  unfold reduce
  rcases Int.sign_trichotomy v.toInt with hs | hs | hs
  · rw [hs]
    exact Int64.toInt_ofInt_of_le (by omega) (by omega)
  · rw [hs]
    exact Int64.toInt_ofInt_of_le (by omega) (by omega)
  · rw [hs]
    exact Int64.toInt_ofInt_of_le (by omega) (by omega)

theorem toNat_magnitude (v : Int64) : (magnitude v).toNat = v.toInt.natAbs % 2 ^ 32 := by
  unfold magnitude
  exact UInt32.toNat_ofNat'

/-- A sign that goes with a magnitude reads as the product of the two. -/
theorem sign_mul_magnitude (v : Int64) :
    (if v.toInt < 0 then -((magnitude v).toNat : Int) else ((magnitude v).toNat : Int))
      = v.toInt.sign * (v.toInt.natAbs % 2 ^ 32 : Nat) := by
  rw [toNat_magnitude]
  rcases Int.lt_trichotomy v.toInt 0 with h | h | h
  · rw [if_pos h, Int.sign_eq_neg_one_of_neg h]
    omega
  · rw [h]
    rfl
  · rw [if_neg (by omega), Int.sign_eq_one_of_pos h]
    omega

/-- **Sign and magnitude of a literal denote its reduction.** -/
theorem signed_magnitude (v : Int64) :
    signed (decide (v.toInt < 0)) (magnitude v) = reduce v := by
  unfold signed reduce
  rw [← sign_mul_magnitude v]
  by_cases h : v.toInt < 0
  · simp [h]
  · simp [h]

theorem reduce_eq_of_natAbs_lt {v : Int64} (h : v.toInt.natAbs < 2 ^ 32) : reduce v = v := by
  apply Int64.toInt_inj.mp
  rw [toInt_reduce, Nat.mod_eq_of_lt h, Int.sign_mul_natAbs]

/-- What is dropped is a multiple of 2³². -/
theorem reduce_bmod (v : Int64) : (reduce v).toInt.bmod (2 ^ 32) = v.toInt.bmod (2 ^ 32) := by
  rw [toInt_reduce]
  -- the magnitude is what is kept of it and a multiple of 2³²
  have hd : (v.toInt.natAbs : Int)
      = (v.toInt.natAbs % 2 ^ 32 : Nat) + (2 ^ 32 : Nat) * (v.toInt.natAbs / 2 ^ 32 : Nat) := by
    omega
  have hv : v.toInt = v.toInt.sign * (v.toInt.natAbs % 2 ^ 32 : Nat)
      + (2 ^ 32 : Nat) * (v.toInt.sign * (v.toInt.natAbs / 2 ^ 32 : Nat)) := by
    calc v.toInt = v.toInt.sign * v.toInt.natAbs := (Int.sign_mul_natAbs _).symm
      _ = v.toInt.sign * ((v.toInt.natAbs % 2 ^ 32 : Nat)
            + (2 ^ 32 : Nat) * (v.toInt.natAbs / 2 ^ 32 : Nat)) := by rw [← hd]
      _ = _ := by rw [Int.mul_add, Int.mul_left_comm]
  rw [show v.toInt.bmod (2 ^ 32) = (v.toInt.sign * (v.toInt.natAbs % 2 ^ 32 : Nat)
      + (2 ^ 32 : Nat) * (v.toInt.sign * (v.toInt.natAbs / 2 ^ 32 : Nat))).bmod (2 ^ 32) from by
    rw [← hv]]
  rw [Int.add_mul_bmod_self_left]

/-- **A register cannot tell a literal from its reduction.** -/
theorem toInt32_reduce (v : Int64) : (reduce v).toInt32 = v.toInt32 := by
  apply Int32.toInt_inj.mp
  rw [Int64.toInt_toInt32, Int64.toInt_toInt32, reduce_bmod]

/-- What a register receives of a literal is zero exactly if the literal is a multiple of 2³². -/
theorem toInt32_eq_zero_iff (v : Int64) : v.toInt32 = 0 ↔ (2 ^ 32 : Int) ∣ v.toInt := by
  rw [← Int32.toInt_inj, Int64.toInt_toInt32, Int32.toInt_zero, ← Int.dvd_iff_bmod_eq_zero]
  norm_num

end Immediate

/-! ## §2. Operands and instructions. -/

/-- The operand with its literal reduced. -/
def Operand.reduce : Operand → Operand
  | .register reg => .register reg
  | .immediate v => .immediate (Immediate.reduce v)

@[simp] theorem Operand.size_reduce (o : Operand) : o.reduce.size = o.size := by
  cases o <;> rfl

namespace Instruction

/-- The instruction with its literal reduced, if it has one. -/
def reduce : Instruction → Instruction
  | .alu op src dst => .alu op src.reduce dst
  | .bitwise op src dst => .bitwise op src.reduce dst
  | .print src => .print src.reduce
  | i => i

@[simp] theorem size_reduce (i : Instruction) : i.reduce.size = i.size := by
  cases i <;> simp [reduce, size]

/-- Reduction touches literals only, so what is a jump afterwards was the same jump before. -/
theorem eq_jump_of_reduce {i : Instruction} {condition : JumpCondition} {target : UInt32}
    (h : i.reduce = .jump condition target) : i = .jump condition target := by
  cases i <;> cases h
  rfl

end Instruction

end ByteMachine
