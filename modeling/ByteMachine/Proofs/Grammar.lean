/-
  ByteMachine.Proofs.Grammar — the token lines that are instructions.

  The reader of a line decides by the number of tokens, then by the mnemonic, then by the operands.
  What it accepts is what `Says` lists, spelled with a comma between two operands.

    • `operands_iff` — the operands of a mnemonic are read exactly if mnemonic and operands say
      something and the tokens are theirs,
    • `lineNodes_of_says` — the tokens of an instruction are read as it,
    • `mem_lineNodes` — the nodes of a line are its labels and its instruction.
-/
import ByteMachine.Assembly.Tree.OfTokens
import ByteMachine.Proofs.Meaning
import ByteMachine.Proofs.Outcome

namespace ByteMachine.Assembly

/-! ## §1. The tokens of nodes. -/

/-- The tokens of a node that stands in a line. -/
def Tree.tokens : Tree → List TokenKind
  | .label name => [.label name]
  | .mnemonic text => [.mnemonic text]
  | .register reg => [.register reg]
  | .integer v => [.number v]
  | .root _ | .line _ => []

/-- The tokens of operands, with a comma between two of them. -/
def operandTokens : List Tree → List TokenKind
  | [] => []
  | [node] => node.tokens
  | node :: rest => node.tokens ++ .comma :: operandTokens rest

/-- The tokens of an instruction line. -/
def lineTokens : List Tree → List TokenKind
  | [] => []
  | mnemonic :: operands => mnemonic.tokens ++ operandTokens operands

/-! ## §2. Operands. -/

variable {text : String} {nodes : List Tree}

/-- A form begins with a mnemonic. -/
theorem Says.head {line : List Tree} {s : Statement} (h : Says line s) :
    ∃ text nodes, line = .mnemonic text :: nodes := by
  cases h <;> exact ⟨_, _, rfl⟩

theorem unaryOperand_inv {kind : TokenKind} {node : Tree}
    (h : unaryOperand text kind = .ok node) :
    (∃ s, Says [.mnemonic text, node] s) ∧ [kind] = node.tokens := by
  unfold unaryOperand at h
  -- the tables are searched in turn; each hit tells which word the text is
  split at h
  · rename_i op reg hop
    cases h
    rw [eq_mnemonic_of_find? hop]
    cases op with
    | print => exact ⟨⟨_, .print (.register reg)⟩, rfl⟩
    | increment => exact ⟨⟨_, .increment reg⟩, rfl⟩
    | decrement => exact ⟨⟨_, .decrement reg⟩, rfl⟩
  · rename_i v hop
    cases h
    rw [eq_mnemonic_of_find? hop]
    exact ⟨⟨_, .print (.immediate v)⟩, rfl⟩
  · cases h
  · cases h
  · rename_i condition name _ hc
    cases h
    rw [eq_mnemonic_of_find? hc]
    exact ⟨⟨_, .jump condition name⟩, rfl⟩
  · cases h
  · cases h

/-- A word of two operands says something with any source and destination. -/
theorem says_of_binary
    (h : ¬ ((AluOp.ofMnemonic? text).isNone && (BitwiseOp.ofMnemonic? text).isNone) = true)
    (src : Operand) (dst : Register) : ∃ s, Says [.mnemonic text, src.node, .register dst] s := by
  cases halu : AluOp.ofMnemonic? text with
  | some op =>
    rw [eq_mnemonic_of_find? halu]
    exact ⟨_, .alu op src dst⟩
  | none =>
    cases hbit : BitwiseOp.ofMnemonic? text with
    | some op =>
      rw [eq_mnemonic_of_find? hbit]
      exact ⟨_, .bitwise op src dst⟩
    | none =>
      rw [halu, hbit] at h
      exact absurd rfl h

theorem binaryOperands_inv {src separator dst : TokenKind}
    (h : binaryOperands text src separator dst = .ok nodes) :
    (∃ s, Says (.mnemonic text :: nodes) s) ∧ [src, separator, dst] = operandTokens nodes := by
  unfold binaryOperands at h
  by_cases hnone : ((AluOp.ofMnemonic? text).isNone && (BitwiseOp.ofMnemonic? text).isNone) = true
  · rw [if_pos hnone] at h
    cases h
  rw [if_neg hnone] at h
  by_cases hcomma : separator = .comma
  · subst hcomma
    rw [if_neg (by simp)] at h
    split at h
    · cases h
    · cases h
      exact ⟨says_of_binary hnone (.register _) _, rfl⟩
    · cases h
      exact ⟨says_of_binary hnone (.immediate _) _, rfl⟩
    · cases h
  · rw [if_pos hcomma] at h
    cases h

theorem operands_inv {kinds : List TokenKind} (h : operands text kinds = .ok nodes) :
    (∃ s, Says (.mnemonic text :: nodes) s) ∧ kinds = operandTokens nodes := by
  unfold operands at h
  split at h
  · split at h
    · rename_i hhalt
      cases h
      rw [hhalt]
      exact ⟨⟨_, .halt⟩, rfl⟩
    · cases h
  · obtain ⟨node, hn, hnodes⟩ := ok_of_bind h
    cases hnodes
    exact unaryOperand_inv hn
  · exact binaryOperands_inv h
  · cases h

theorem operands_of_says {s : Statement} (h : Says (.mnemonic text :: nodes) s) :
    operands text (operandTokens nodes) = .ok nodes := by
  cases h with
  | alu op src dst => cases op <;> cases src <;> rfl
  | bitwise op src dst => cases op <;> cases src <;> rfl
  | print src => cases src <;> rfl
  | increment reg => rfl
  | decrement reg => rfl
  | jump condition name => cases condition <;> rfl
  | halt => rfl

/-- **Operands are read exactly if they say something with their mnemonic** and the tokens are
theirs. -/
theorem operands_iff {kinds : List TokenKind} :
    operands text kinds = .ok nodes
      ↔ (∃ s, Says (.mnemonic text :: nodes) s) ∧ kinds = operandTokens nodes := by
  refine ⟨operands_inv, ?_⟩
  rintro ⟨⟨s, hs⟩, rfl⟩
  exact operands_of_says hs

/-! ## §3. Lines. -/

/-- A line's nodes behind a mnemonic are the one instruction that its operands make. -/
theorem lineNodes_mnemonic {line : Nat} {rest : List Token} {operandNodes : List Tree}
    (h : operands text (rest.map (·.kind)) = .ok operandNodes) :
    lineNodes (⟨.mnemonic text, line⟩ :: rest) = .ok [.line (.mnemonic text :: operandNodes)] := by
  simp only [lineNodes, h]

/-- **The tokens of an instruction are read as it**, on whatever lines they are said to stand. -/
theorem lineNodes_of_says {nodes : List Tree} {s : Statement} {tokens : List Token}
    (h : Says nodes s) (hk : tokens.map (·.kind) = lineTokens nodes) :
    lineNodes tokens = .ok [.line nodes] := by
  obtain ⟨text, operandNodes, rfl⟩ := h.head
  obtain ⟨⟨kind, line⟩, rest, rfl, hkind, hrest⟩ := List.map_eq_cons_iff.mp hk
  obtain rfl : kind = .mnemonic text := hkind
  apply lineNodes_mnemonic
  rw [hrest]
  exact operands_of_says h

theorem lineNodes_line {nodes : List Tree} {s : Statement} (h : Says nodes s) (line : Nat) :
    lineNodes ((lineTokens nodes).map (⟨·, line⟩)) = .ok [.line nodes] := by
  apply lineNodes_of_says h
  rw [List.map_map]
  exact List.map_id _

/-- The nodes of a line are its labels and its instruction. -/
theorem mem_lineNodes : ∀ {tokens : List Token} {nodes : List Tree}, lineNodes tokens = .ok nodes →
    ∀ node ∈ nodes,
      (∃ name, node = .label name ∧ .label name ∈ tokens.map (·.kind))
      ∨ ∃ line s, node = .line line ∧ Says line s ∧ lineTokens line ⊆ tokens.map (·.kind) := by
  intro tokens
  induction tokens with
  | nil =>
    intro nodes h node hn
    cases h
    cases hn
  | cons token rest ih =>
    intro nodes h node hn
    obtain ⟨kind, number⟩ := token
    cases kind with
    | label name =>
      obtain ⟨others, ho, hnodes⟩ := ok_of_bind (show (lineNodes rest >>= fun more =>
        Except.ok (Tree.label name :: more)) = .ok nodes from h)
      cases hnodes
      rcases List.mem_cons.mp hn with rfl | hn
      · exact .inl ⟨name, rfl, List.mem_cons_self⟩
      · rcases ih ho node hn with ⟨other, hnode, hm⟩ | ⟨line, s, hnode, hs, hsub⟩
        · exact .inl ⟨other, hnode, List.mem_cons_of_mem _ hm⟩
        · exact .inr ⟨line, s, hnode, hs, fun k hk => List.mem_cons_of_mem _ (hsub hk)⟩
    | mnemonic text =>
      cases ho : operands text (rest.map (·.kind)) with
      | error e =>
        simp only [lineNodes, ho] at h
        cases h
      | ok operandNodes =>
        rw [lineNodes_mnemonic ho] at h
        cases h
        obtain ⟨⟨s, hs⟩, hkinds⟩ := operands_inv ho
        refine .inr ⟨_, s, List.mem_singleton.mp hn, hs, ?_⟩
        show .mnemonic text :: operandTokens operandNodes ⊆ .mnemonic text :: rest.map (·.kind)
        rw [hkinds]
        exact List.Subset.refl _
    | _ => cases h

end ByteMachine.Assembly
