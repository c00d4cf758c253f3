import Scriptlet.Proofs.Grammar.Content
import Scriptlet.Proofs.Grammar.StatesSoundness

/-! # Parsing keeps every token

Whatever a parser of statements takes is written again in the tree that it finds: all firm
lexemes, in the same order. What is written may have closing braces that were not there,
but only where the text has come to its end.
-/

namespace Scriptlet.Grammar

open Parse

/-- From a row of tokens to what is left of it, the firm lexemes are those of the pieces,
    apart from closing braces that are missing at the end of the text. -/
def Conserves (s s' : Tokens) (ps : List Piece) : Prop :=
  (∀ t ∈ s.pending, t.Lexical) → ∃ ts missing, s = s'.prepend ts ∧
    Token.firm ts ++ List.replicate missing (.separator '\x7d') = Piece.firm ps ∧
    (0 < missing → s'.pending = [])

namespace Conserves

variable {s s₁ s' : Tokens} {ps qs : List Piece}

theorem congr (h : Conserves s s' ps) (same : Piece.firm ps = Piece.firm qs) :
    Conserves s s' qs := by
  intro lexical
  obtain ⟨ts, missing, taken, firm, ended⟩ := h lexical
  exact ⟨ts, missing, taken, firm.trans same, ended⟩

theorem of_firm {ts : List Token} (same : (∀ t ∈ ts, t.Lexical) → Token.firm ts = Piece.firm ps) :
    Conserves (s.prepend ts) s ps := by
  intro lexical
  rw [Tokens.pending_prepend, List.forall_mem_append] at lexical
  exact ⟨ts, 0, rfl, by simpa using same lexical.1, fun absurd => by cases absurd⟩

theorem refl (s : Tokens) : Conserves s s [] :=
  fun _ => ⟨[], 0, rfl, rfl, fun absurd => by cases absurd⟩

/-- A brace that is missing at the end of the text. -/
theorem missing (nothing : s.pending = []) : Conserves s s [.separator '\x7d'] :=
  fun _ => ⟨[], 1, rfl, rfl, fun _ => nothing⟩

/-- Behind a missing brace there is nothing left to take. -/
theorem trans (first : Conserves s s₁ ps) (second : Conserves s₁ s' qs) :
    Conserves s s' (ps ++ qs) := by
  intro lexical
  obtain ⟨ts, missing, rfl, firm, ended⟩ := first lexical
  rw [Tokens.pending_prepend, List.forall_mem_append] at lexical
  obtain ⟨us, missing', rfl, firm', ended'⟩ := second lexical.2
  have nothing : 0 < missing → us = [] ∧ s'.pending = [] := by
    intro some_missing
    simpa using ended some_missing
  refine ⟨ts ++ us, missing + missing', (s'.prepend_append ts us).symm, ?_, ?_⟩
  · rw [Piece.firm_append, ← firm, ← firm', Token.firm_append, List.replicate_add]
    rcases missing.eq_zero_or_pos with rfl | some_missing
    · simp
    · simp [(nothing some_missing).1]
  · intro some_missing
    rcases missing.eq_zero_or_pos with rfl | before
    · exact ended' (by omega)
    · exact (nothing before).2

end Conserves

/-- The parser of statements of the level inside keeps every token, and finds nothing only
    where the text ends or a brace closes. -/
structure ConservesStatements (d : Nat) (inner : Grammar) : Prop extends
    SoundStatements d inner where
  conserves : ∀ ⦃s n s'⦄, inner.statement s = .ok (some n) s' → Conserves s s' n.pieces
  closes : ∀ ⦃s s'⦄, inner.statement s = .ok none s' → Closes s

variable {d : Nat} {inner : Grammar} {s s' : Tokens} {n : Node}

theorem conserves_semicolon {r : Option Token} (taken : takeSeparator ';' s = .ok r s') :
    Conserves s s' [.separator ';'] := by
  obtain ⟨ts, rfl, ending⟩ := ends_of_takeIf taken
  exact .of_firm fun _ => ending.firm

/-! ## Blocks -/

theorem conserves_body (level : ConservesStatements d inner) {ns : List Node}
    (collects : Collects inner.statement s ns s') : Conserves s s' (Node.bodyPieces ns) := by
  induction collects with
  | done ran =>
      cases (level.idle ran).1
      exact .refl _
  | round ran _ ih =>
      refine ((level.conserves ran).trans ih).congr ?_
      simp [Node.bodyPieces]

theorem parseBlock_conserves (level : ConservesStatements d inner)
    (h : parseBlock inner s = .ok n s') : Conserves s s' n.pieces := by
  obtain ⟨opening, s₁, ns, s₂, r, opens, rfl, repeated, taken, rfl⟩ := parseBlock_cases h
  have collects := collects_of_many (statement_progresses level.toSoundStatements) repeated
  have closing : Conserves s₂ s' [.separator '\x7d'] := by
    obtain ⟨t, -, closes, rfl⟩ | ⟨-, rfl, notClosed⟩ := takeIf_cases taken
    · exact .of_firm fun _ => Token.firm_separator closes []
    · have ends := collects.ends fun _ _ ran => (level.idle ran).1
      exact .missing ((level.closes ends).resolve_right notClosed)
  have body := (conserves_body level collects).trans closing
  have brace : Conserves (s₁.prepend [opening]) s₁ [.separator '\x7b'] :=
    .of_firm fun _ => Token.firm_separator opens []
  exact brace.trans body

/-! ## Declarations -/

theorem conserves_declarators (sound : Sound d inner) {xs : List (Declarator Node)}
    (collects : Collects (furtherDeclarator inner) s xs s') :
    Conserves s s' (Node.declaratorPieces [.operator ",", .blank] xs) := by
  induction collects with
  | done ran =>
      cases furtherDeclarator_idle ran
      exact .refl _
  | round ran _ ih =>
      obtain ⟨_, rfl, comma, us, rfl, separated, item⟩ := furtherDeclarator_takes sound ran
      rw [Node.declaratorPieces_cons]
      refine Conserves.trans (.of_firm fun lexical => ?_) ih
      rw [List.forall_mem_cons] at lexical
      rw [Token.firm_operator separated, item.firm lexical.2]
      rfl

theorem parseVar_conserves (sound : Sound d inner) {t : Token} (isVar : t.isSymbol "var" = true)
    (h : parseVar inner (s.prepend [t]) = .ok n s') : Conserves (s.prepend [t]) s' n.pieces := by
  obtain ⟨first, s₁, others, s₂, r, ran, repeated, taken, rfl⟩ := parseVar_cases h
  obtain ⟨ts, rfl, declared⟩ := parseDeclarator_takes sound ran
  have collects := collects_of_many (furtherDeclarator_progresses sound) repeated
  have head : Conserves ((s₁.prepend ts).prepend [t]) s₁ (.symbol "var" :: .blank ::
      .symbol first.name :: Node.valuePieces first.value) := by
    have word : Conserves ((s₁.prepend ts).prepend [t]) (s₁.prepend ts) [.symbol "var", .blank] :=
      .of_firm fun _ => Token.firm_symbol isVar []
    exact word.trans (.of_firm declared.firm)
  refine ((head.trans (conserves_declarators sound collects)).trans
    (conserves_semicolon taken)).congr ?_
  rw [Node.pieces, Node.declaratorPieces_cons]
  simp

/-! ## Arms -/

theorem parseArm_conserves (level : ConservesStatements d inner) {word : BranchWord}
    {b : Branch Node} (h : parseArm inner word s = .ok b s') {ws : List Token}
    (introduced : word.Introduces ws) :
    Conserves (s.prepend ws) s' (Node.branchPieces [.blank] [b]) := by
  obtain ⟨cs, c, s₁, n, rfl, condition, body, rfl⟩ := parseArm_cases level.toSound h
  have words : Conserves ((s₁.prepend cs).prepend ws) (s₁.prepend cs) word.pieces :=
    .of_firm fun _ => introduced.firm
  refine ((words.trans (.of_firm condition.firm)).trans (level.conserves body)).congr ?_
  rw [Node.branchPieces_cons, Node.branchPieces_nil]
  simp

theorem conserves_arms (level : ConservesStatements d inner) {bs : List (Branch Node)}
    (collects : Collects (furtherArm inner) s bs s') :
    Conserves s s' (Node.branchPieces [.blank] bs) := by
  induction collects with
  | done ran =>
      cases furtherArm_idle ran
      exact .refl _
  | @round _ _ _ b bs ran _ ih =>
      obtain ⟨word, ws, s₁, _, same, -, introduced, rfl, -, ran⟩ | ⟨absurd, -⟩ :=
        furtherArm_cases ran
      · cases same
        have pieces := Node.branchPieces_append [.blank] b [] bs
        rw [List.cons_append, List.nil_append] at pieces
        rw [pieces]
        exact (parseArm_conserves level ran introduced).trans ih
      · cases absurd

theorem lastArm_conserves (level : ConservesStatements d inner) {bs : List (Branch Node)}
    (h : lastArm inner s = .ok bs s') : Conserves s s' (Node.branchPieces [.blank] bs) := by
  obtain ⟨word, s₁, n, rfl, isElse, body, rfl⟩ | ⟨rfl, rfl, -⟩ := lastArm_cases h
  · have words : Conserves (s₁.prepend [word]) s₁ BranchWord.else_.pieces :=
      .of_firm fun _ => Token.firm_symbol isElse []
    refine (words.trans (level.conserves body)).congr ?_
    rw [Node.branchPieces_cons, Node.branchPieces_nil]
    simp [Node.conditionPieces]
  · exact .refl _

theorem parseIf_conserves (level : ConservesStatements d inner) {t : Token}
    (isIf : t.isSymbol "if" = true) (h : parseIf inner (s.prepend [t]) = .ok n s') :
    Conserves (s.prepend [t]) s' n.pieces := by
  obtain ⟨first, s₁, others, s₂, last, ran, repeated, lastly, rfl⟩ := parseIf_cases h
  have collects := collects_of_many (furtherArm_progresses level.toSoundStatements) repeated
  have introduced : BranchWord.if_.Introduces [t] :=
    congrArg (fun l => [l]) (toLexeme_of_isSymbol isIf)
  refine (((parseArm_conserves level ran introduced).trans (conserves_arms level collects)).trans
    (lastArm_conserves level lastly)).congr ?_
  rw [Node.pieces, Node.branchPieces_append, Node.branchPieces_cons [],
    Node.branchPieces_cons [.blank] first]
  simp [Node.branchPieces_nil]

/-! ## All statements -/

theorem parseExpressionStatement_conserves (sound : Sound d inner)
    (h : parseExpressionStatement inner s = .ok n s') : Conserves s s' n.pieces := by
  obtain ⟨e, s₁, r, ran, taken, rfl⟩ := parseExpressionStatement_cases h
  obtain ⟨ts, rfl, derived⟩ := parseExpression_takes sound ran
  exact (Conserves.of_firm derived.firm).trans (conserves_semicolon taken)

theorem parseStatement_conserves (level : ConservesStatements d inner)
    (h : parseStatement inner s = .ok (some n) s') : Conserves s s' n.pieces := by
  obtain ⟨absurd, -⟩ | ⟨t, s₁, _, rfl, same, found⟩ := parseStatement_cases h
  · cases absurd
  cases same
  obtain ⟨ends, rfl, rfl⟩ | ran | ⟨isVar, ran⟩ | ⟨isIf, ran⟩ | ran := found
  · exact .of_firm fun _ => Token.firm_separator ends []
  · exact parseBlock_conserves level ran
  · exact parseVar_conserves level.toSound isVar ran
  · exact parseIf_conserves level isIf ran
  · exact parseExpressionStatement_conserves level.toSound ran

/-- At every level, the parser of statements keeps every token. -/
theorem conservesStatements_within : ∀ d, ConservesStatements d (within d)
  | 0 => ⟨soundStatements_within 0, fun _ _ _ h => absurd h (tooDeep_ne_ok _),
      fun _ _ h => absurd h (tooDeep_ne_ok _)⟩
  | d + 1 => ⟨soundStatements_within (d + 1),
      fun _ _ _ h => parseStatement_conserves (conservesStatements_within d) h,
      fun _ _ h => (parseStatement_eq_none.mp h).2⟩

end Scriptlet.Grammar
