/-
  ByteMachine.Word — 32-bit words as four bytes, most significant first.

  Main statement: `Word.ofBytes_bytes` — a word is read back from its bytes.
-/

namespace ByteMachine.Word

/-- The four bytes of a word, most significant first. -/
def bytes (w : UInt32) : List UInt8 :=
  [.ofNat (w.toNat / 0x1000000), .ofNat (w.toNat / 0x10000), .ofNat (w.toNat / 0x100),
    .ofNat w.toNat]

/-- The word whose bytes are `a b c d`, most significant first. -/
def ofBytes (a b c d : UInt8) : UInt32 :=
  .ofNat (a.toNat * 0x1000000 + b.toNat * 0x10000 + c.toNat * 0x100 + d.toNat)

@[simp] theorem length_bytes (w : UInt32) : (bytes w).length = 4 := rfl

theorem ofBytes_bytes (w : UInt32) :
    ofBytes (.ofNat (w.toNat / 0x1000000)) (.ofNat (w.toNat / 0x10000)) (.ofNat (w.toNat / 0x100))
      (.ofNat w.toNat) = w := by
  have h := w.toNat_lt
  apply UInt32.toNat_inj.mp
  simp only [ofBytes, UInt32.toNat_ofNat', UInt8.toNat_ofNat']
  omega

end ByteMachine.Word
