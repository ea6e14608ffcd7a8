/-
  ByteMachine.Proofs.Disassembly — the text of an instruction is a line of source.

  An instruction is rendered without a tree, and a line of a tree without an instruction.  Both
  come to the same characters, so the text of a program can be assembled again, and a line reads
  the same in the source and in what is decoded of its image.  Jumps are apart: their text shows an
  offset, and their line a label.

    • `text_nodes` — the two renderings of an instruction agree,
    • `ofSource_text_program` — the text of a program is read as its lines,
    • `assemble_text_program` — so it is assembled to its bytes,
    • `text_of_line` — a line of an assembled source is shown by its image as it is,
    • `disassembly_is_source` — both together.
-/
import ByteMachine.Proofs.Agreement
import ByteMachine.Proofs.Encoding
import ByteMachine.Proofs.Lockstep
import ByteMachine.Proofs.Rendering

namespace ByteMachine

/-! ## §1. The line of an instruction. -/

namespace Instruction

open Assembly

/-- The instruction is no jump. -/
def Plain (i : Instruction) : Prop := ∀ condition target, i ≠ .jump condition target

/-- The nodes of the line that an instruction is written as.  A jump has none, for its target is an
offset and no label. -/
def nodes : Instruction → List Tree
  | .alu op src dst => [.mnemonic op.mnemonic, src.node, .register dst]
  | .bitwise op src dst => [.mnemonic op.mnemonic, src.node, .register dst]
  | .increment reg => [.mnemonic UnaryOp.increment.mnemonic, .register reg]
  | .decrement reg => [.mnemonic UnaryOp.decrement.mnemonic, .register reg]
  | .print src => [.mnemonic UnaryOp.print.mnemonic, src.node]
  | .jump _ _ => []
  | .halt => [.mnemonic haltMnemonic]

variable {i : Instruction}

theorem says_nodes (h : i.Plain) : Says i.nodes (.plain i) := by
  cases i with
  | alu op src dst => exact .alu op src dst
  | bitwise op src dst => exact .bitwise op src dst
  | increment reg => exact .increment reg
  | decrement reg => exact .decrement reg
  | print src => exact .print src
  | jump condition target => exact absurd rfl (h condition target)
  | halt => exact .halt

theorem statement?_nodes (h : i.Plain) : (Tree.line i.nodes).statement? = some (.plain i) :=
  Tree.statement?_line (ofLine_iff.mpr (says_nodes h))

/-- A line that says an instruction is the one it is written as. -/
theorem line_eq_nodes {line : List Tree} (h : Says line (.plain i)) : line = i.nodes := by
  cases h <;> rfl

theorem plain_of_line {line : List Tree} (h : Says line (.plain i)) : i.Plain := by
  intro condition target hi
  subst hi
  cases h

theorem toList_text_node (src : Operand) : src.node.text.toList = src.text.toList := by
  cases src <;> simp [Operand.node, Tree.text, Operand.text]

/-- **The two renderings of an instruction agree**: that of its line, and its own. -/
theorem text_nodes (h : i.Plain) : (Tree.line i.nodes).text = i.text := by
  apply String.toList_inj.mp
  cases i with
  | alu op src dst =>
    rw [nodes, toList_text_three, toList_text_node]
    simp [text, Tree.text, toString]
  | bitwise op src dst =>
    rw [nodes, toList_text_three, toList_text_node]
    simp [text, Tree.text, toString]
  | increment reg =>
    rw [nodes, toList_text_two]
    simp [text, Tree.text, toString]
  | decrement reg =>
    rw [nodes, toList_text_two]
    simp [text, Tree.text, toString]
  | print src =>
    rw [nodes, toList_text_two, toList_text_node]
    simp [text, toString]
  | jump condition target => exact absurd rfl (h condition target)
  | halt =>
    rw [nodes, toList_text_one]
    rfl

/-- The line of an instruction is one that a source can have. -/
theorem written_nodes (h : i.Plain) : (Tree.line i.nodes).Written := written_of_plain (says_nodes h)

/-- The line of an instruction comes back as it is. -/
theorem reread_nodes (h : i.Plain) (line : Nat) :
    (Tree.line i.nodes).reread line = .ok (.line i.nodes) := by
  cases i with
  | alu op src dst => cases src <;> rfl
  | bitwise op src dst => cases src <;> rfl
  | print src => cases src <;> rfl
  | jump condition target => exact absurd rfl (h condition target)
  | _ => rfl

/-- **The text of an instruction is scanned, and read, as its line.** -/
theorem scan_text (h : i.Plain) (line : Nat) :
    ∃ tokens, scanFrom line false [] i.text.toList = .ok tokens
      ∧ lineNodes tokens = .ok [.line i.nodes] := by
  rw [← text_nodes h]
  rcases scan_lineText (written_nodes h) line with ⟨e, -, he⟩ | ⟨tokens, other, hs, hl, ho⟩
  · cases he.symm.trans (reread_nodes h line)
  · cases ho.symm.trans (reread_nodes h line)
    exact ⟨tokens, hs, hl⟩

end Instruction

/-! ## §2. The text of a program. -/

namespace Assembly

variable {is : List Instruction}

/-- The lines of a program's text are the texts of its instructions. -/
theorem sourceLines_text_program (hne : is ≠ []) :
    sourceLines ("\n".intercalate (is.map Instruction.text))
      = is.map fun i => i.text.toList := by
  unfold sourceLines
  rw [String.toList_intercalate, List.map_map]
  apply segments_intercalate rfl
  · exact fun hnil => hne (List.map_eq_nil_iff.mp hnil)
  · intro l hl
    obtain ⟨i, -, rfl⟩ := List.mem_map.mp hl
    exact oneLine_instruction i

/-- Texts of instructions are scanned, and read, as their lines, one by one. -/
theorem scanLines_text (h : ∀ i ∈ is, i.Plain) : ∀ line : Nat,
    ∃ tokens, scanLines line (is.map fun i => i.text.toList) = .ok tokens
      ∧ tokens.mapM lineNodes = .ok (is.map fun i => [.line i.nodes]) := by
  induction is with
  | nil => exact fun _ => ⟨[], rfl, rfl⟩
  | cons i is ih =>
    intro line
    obtain ⟨hi, his⟩ := List.forall_mem_cons.mp h
    obtain ⟨tokens, hs, hl⟩ := Instruction.scan_text hi line
    obtain ⟨more, hmore, hlines⟩ := ih his (line + 1)
    refine ⟨tokens :: more, ?_, ?_⟩
    · rw [List.map_cons, scanLines, hs, hmore]
      rfl
    · rw [List.mapM_cons, hl, hlines]
      rfl

/-- **The text of a program is read as its lines.** -/
theorem ofSource_text_program (h : ∀ i ∈ is, i.Plain) :
    Tree.ofSource ("\n".intercalate (is.map Instruction.text))
      = .ok (.root (is.map fun i => .line i.nodes)) := by
  rw [ofSource_eq_lines]
  cases is with
  | nil =>
    -- no instructions give an empty text, which has one empty line
    have hempty : sourceLines ("\n".intercalate ([].map Instruction.text)) = [[]] := by decide
    rw [hempty, scanLines, scanFrom_nil]
    rfl
  | cons first more =>
    obtain ⟨tokens, hs, hl⟩ := scanLines_text h 1
    rw [sourceLines_text_program (List.cons_ne_nil _ _), hs]
    show (tokens.mapM lineNodes >>= fun lists => Except.ok (Tree.root lists.flatten)) = _
    rw [hl]
    show Except.ok (Tree.root _) = _
    rw [← List.flatMap_def, ← List.map_eq_flatMap]

theorem statements_program (h : ∀ i ∈ is, i.Plain) :
    statements (is.map fun i => .line i.nodes) = is.map .plain := by
  induction is with
  | nil => rfl
  | cons i is ih =>
    obtain ⟨hi, his⟩ := List.forall_mem_cons.mp h
    show List.filterMap _ (_ :: _) = _
    rw [List.filterMap_cons_some (Instruction.statement?_nodes hi)]
    exact congrArg (Statement.plain i :: ·) (ih his)

theorem readable_program (h : ∀ i ∈ is, i.Plain) :
    Readable (is.map fun i => .line i.nodes) := by
  intro node hn hnone
  obtain ⟨i, hi, rfl⟩ := List.mem_map.mp hn
  cases (Instruction.statement?_nodes (h i hi)).symm.trans hnone

/-- **The text of a program is assembled to its bytes**, whatever its size. -/
theorem assemble_text_program (h : ∀ i ∈ is, i.Plain) :
    assemble ("\n".intercalate (is.map Instruction.text))
      = .ok (Instruction.encodeAll is).toArray := by
  obtain ⟨image, himage, hbytes⟩ := assemble_of_plain (readable_program h) (statements_program h)
  unfold assemble
  rw [ofSource_text_program h]
  show (Tree.root _).assemble = _
  rw [himage, ← hbytes]

end Assembly

/-! ## §3. The lines of a source. -/

namespace Source

open Assembly

variable {nodes operands : List Tree} {image : Image} {word : String} {i : Instruction}

/-- The literal of an instruction stands among the operands of its line. -/
theorem integer_mem_of_literal? {v : Int64} (h : Says (.mnemonic word :: operands) (.plain i))
    (hv : i.literal? = some v) : .integer v ∈ operands := by
  have hsrc : ∀ src : Operand, src.literal? = some v → src.node = .integer v := by
    intro src hs
    cases src with
    | register reg => cases hs
    | immediate w => cases hs; rfl
  cases h with
  | alu op src dst => exact hsrc src hv ▸ List.mem_cons_self
  | bitwise op src dst => exact hsrc src hv ▸ List.mem_cons_self
  | print src => exact hsrc src hv ▸ List.mem_cons_self
  | _ => cases hv

/-- **A line of an assembled source is shown by its image as it is**, if it is no jump and an
immediate keeps its literal. -/
theorem text_of_line (hl : Loaded nodes image) {k : Nat}
    (hk : (lines nodes)[k]? = some (.mnemonic word :: operands))
    (hword : JumpCondition.ofMnemonic? word = none)
    (hliteral : ∀ v, .integer v ∈ operands → v.toInt.natAbs < 2 ^ 32) :
    ∃ i n, image.decodeAt (lineOffset nodes k) = .ok (i, n)
      ∧ i.text = (Tree.line (.mnemonic word :: operands)).text := by
  obtain ⟨s, hs, hsays⟩ := says_of_getElem? hl.readable hk
  obtain ⟨i, hi, -, hd⟩ := hl.decodeAt hs
  cases s with
  | jump condition name =>
    cases hsays
    rw [JumpCondition.ofMnemonic?_mnemonic] at hword
    cases hword
  | plain j =>
    cases hi
    have hreduce : i.reduce = i := Instruction.reduce_eq_of_literal? fun v hv =>
      Immediate.reduce_eq_of_natAbs_lt (hliteral v (integer_mem_of_literal? hsays hv))
    rw [hreduce] at hd
    refine ⟨i, i.size, hd, ?_⟩
    rw [Instruction.line_eq_nodes hsays, Instruction.text_nodes (Instruction.plain_of_line hsays)]

/-! ## §4. Disassembly. -/

/-- **The text of instructions is source, and the source of instructions is their text.**  The
texts of any instructions but jumps, joined by line ends, are assembled to their bytes, one behind
the other.  And of a source that is assembled below 2³² bytes, each line that is no jump and whose
literal has a magnitude below 2³² reads in the tree as the instruction reads that is decoded at the
line's offset. -/
theorem disassembly_is_source :
    (∀ is : List Instruction, (∀ i ∈ is, ∀ condition target, i ≠ .jump condition target) →
      assemble ("\n".intercalate (is.map Instruction.text))
        = .ok (Instruction.encodeAll is).toArray) ∧
    ∀ (source : String) (image : Image), assemble source = .ok image → image.size < 2 ^ 32 →
      ∃ nodes, Tree.ofSource source = .ok (.root nodes) ∧
        ∀ k word operands, (lines nodes)[k]? = some (.mnemonic word :: operands) →
          JumpCondition.ofMnemonic? word = none →
          (∀ v, .integer v ∈ operands → v.toInt.natAbs < 2 ^ 32) →
          ∃ i n, image.decodeAt (lineOffset nodes k) = .ok (i, n) ∧
            i.text = (Tree.line (.mnemonic word :: operands)).text := by
  refine ⟨fun is h => assemble_text_program h, fun source image h hsize => ?_⟩
  obtain ⟨tree, ht, ha⟩ := ok_of_bind h
  cases tree with
  | root nodes =>
    have hl := loaded_of_source h ht hsize
    exact ⟨nodes, ht, fun k word operands hk hword hliteral =>
      text_of_line hl hk hword hliteral⟩
  | _ => cases ha

/-- The least literal is written and read as it is, though its bytes keep nothing of it; the line
behind it, whose literal is short, is shown by the image as it was written. -/
theorem disassembly_is_source_least :
    let program : List Instruction :=
      [.alu .move (.immediate Int64.minValue) .r1, .bitwise .xor (.immediate 7) .r2, .halt]
    let source := "movb #-9223372036854775808, r1\nxorb #7, r2\nhalt"
    let image : Image := #[0x51, 0xff, 0, 0, 0, 0, 0xc1, 0x26, 0xfe, 0, 0, 0, 7, 0xf4]
    "\n".intercalate (program.map Instruction.text) = source ∧ assemble source = .ok image ∧
      ∃ i n, image.decodeAt 6 = .ok (i, n) ∧ i.text = "xorb #7, r2" := by
  intro program source image
  have hplain : ∀ i ∈ program, i.Plain := by
    intro i hi condition target
    rintro rfl
    simp [program] at hi
  have htext : "\n".intercalate (program.map Instruction.text) = source := by cbv
  have hbytes : Instruction.encodeAll program = image.toList := by decide +kernel
  obtain ⟨hprograms, hsources⟩ := disassembly_is_source
  have ha : assemble source = .ok image := by
    have h := hprograms program hplain
    rwa [htext, hbytes] at h
  obtain ⟨nodes, ht, hlines⟩ := hsources source image ha (by decide)
  obtain rfl : nodes = program.map fun i => .line i.nodes :=
    Tree.root.inj (Except.ok.inj (ht.symm.trans (htext ▸ ofSource_text_program hplain)))
  obtain ⟨i, n, hd, hshown⟩ := hlines 1 "xorb" [.integer 7, .register .r2] rfl rfl (by
    intro v hv
    simp at hv
    rw [hv]
    decide)
  exact ⟨htext, ha, i, n, hd, hshown.trans (by cbv)⟩

end Source

end ByteMachine
