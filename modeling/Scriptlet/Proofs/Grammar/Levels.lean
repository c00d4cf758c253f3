import Scriptlet.Proofs.Grammar.Descent

/-! # How many levels of nesting a text needs

The parsers run out of levels exactly where the count says that there are too many of them, but
they want one level more for an operand, even for a name or a number: as many levels as there are
can be opened around a statement, and one less around an operand.
-/

namespace Scriptlet.Grammar

open Parse

variable {X Y : Part} {c d : Nat} {s s' : Tokens}

/-! ## What the parsers of a part depend on -/

/-- Do the parsers of a part run out of levels at `s`, with `inner` one level further in? -/
def Part.Exhausts (inner : Grammar) : Part → Tokens → Prop
  | .body => Parse.Exhausts (many (parseStatement inner))
  | .statement => Parse.Exhausts (parseStatement inner)
  | .declarations => Parse.Exhausts (parseDeclarators inner)
  | .arms word => Parse.Exhausts (parseArms word inner)
  | .expression => Parse.Exhausts (parseExpression inner)
  | .assignment => Parse.Exhausts (parseAssignment inner)
  | .conditional => Parse.Exhausts (parseConditional inner)
  | .chain levels => Parse.Exhausts (parseOperands levels inner)
  | .operand => Parse.Exhausts (parseOperand inner)
  | .update => Parse.Exhausts (parseUpdate inner)
  | .call => Parse.Exhausts (parseCall inner)
  | .suffixes => Parse.Exhausts (many (parseSuffix inner))
  | .access => Parse.Exhausts (parseAccess inner)
  | .members => Parse.Exhausts (many (parseMember inner))
  | .atom => Parse.Exhausts (parseAtom inner)

/-- The part cannot be read at `s`, because it is nested too deep for so many levels. -/
def Part.RunsOut (X : Part) : Nat → Tokens → Prop
  | 0, _ => True
  | levels + 1, s => X.Exhausts (within levels) s

theorem runsOut_statement : Exhausts (within d).statement s ↔ Part.statement.RunsOut d s := by
  cases d with
  | zero => exact iff_of_true (exhausts_tooDeep s) trivial
  | succ d => exact Iff.rfl

theorem runsOut_body : Exhausts (many (within d).statement) s ↔ Part.body.RunsOut d s := by
  cases d with
  | zero => exact iff_of_true (exhausts_tooDeep s).bind trivial
  | succ d => exact Iff.rfl

theorem runsOut_assignment : Exhausts (within d).assignment s ↔ Part.assignment.RunsOut d s := by
  cases d with
  | zero => exact iff_of_true (exhausts_tooDeep s) trivial
  | succ d => exact Iff.rfl

theorem runsOut_conditional :
    Exhausts (within d).conditional s ↔ Part.conditional.RunsOut d s := by
  cases d with
  | zero => exact iff_of_true (exhausts_tooDeep s) trivial
  | succ d => exact Iff.rfl

theorem runsOut_operand : Exhausts (within d).operand s ↔ Part.operand.RunsOut d s := by
  cases d with
  | zero => exact iff_of_true (exhausts_tooDeep s) trivial
  | succ d => exact Iff.rfl

theorem runsOut_access : Exhausts (within d).access s ↔ Part.access.RunsOut d s := by
  cases d with
  | zero => exact iff_of_true (exhausts_tooDeep s) trivial
  | succ d => exact Iff.rfl

/-! ### What a part leads to -/

/-- The part runs out of levels because something that it comes to read does. -/
def Part.Leads (X : Part) (d : Nat) (s : Tokens) : Prop :=
  ∃ c Y s' e, Descends X s c Y s' ∧
    e + c + Y.inOperand.toNat = d + 1 + X.inOperand.toNat ∧ Y.RunsOut e s'

theorem leads_of_body (deep : Exhausts (many (parseStatement (within d))) s) :
    Part.body.Leads d s := by
  have progress : Progresses (parseStatement (within d)) :=
    statement_progresses (soundStatements_within (d + 1))
  obtain deep | ⟨n, s₁, ran, deep⟩ := (exhausts_many progress).mp deep
  · exact ⟨_, _, _, d + 1, .first, rfl, deep⟩
  · exact ⟨_, _, _, d + 1, .next ⟨d, ran⟩, rfl, deep⟩

theorem leads_of_statement (deep : Exhausts (parseStatement (within d)) s) :
    Part.statement.Leads d s := by
  obtain nothing | ⟨t, s, rfl⟩ := s.eq_prepend
  · exact absurd deep (not_exhausts_of_ok (parseStatement_of_closes (.inl nothing)))
  obtain ⟨opens, deep⟩ | ⟨isVar, deep⟩ | ⟨isIf, deep⟩ |
    ⟨⟨notClosing, notEmpty, notBlock, notVar, notIf⟩, deep⟩ := exhausts_parseStatement.mp deep
  · exact ⟨_, _, _, d, .block opens, rfl, runsOut_body.mp deep⟩
  · exact ⟨_, _, _, d + 1, .var isVar, rfl, deep⟩
  · exact ⟨_, _, _, d + 1, .armed isIf, rfl, deep⟩
  · exact ⟨_, _, _, d + 1, .expression notClosing notEmpty notBlock notVar notIf, rfl, deep⟩

theorem leads_of_declarations (deep : Exhausts (parseDeclarators (within d)) s) :
    Part.declarations.Leads d s := by
  obtain deep | ⟨x, s₁, ran, deep⟩ := exhausts_parseDeclarators.mp deep
  · obtain ⟨t, sign, s₁, rfl, isName, assigned, deep⟩ := exhausts_parseDeclarator.mp deep
    exact ⟨_, _, _, d + 1, .value isName assigned, rfl, deep⟩
  · obtain ⟨comma, s₂, rfl, separated, deep⟩ := exhausts_furtherDeclarators.mp deep
    exact ⟨_, _, _, d + 1, .alsoDeclared ⟨d, ran⟩ separated, rfl, deep⟩

theorem leads_of_arms {word : BranchWord} (deep : Exhausts (parseArms word (within d)) s) :
    (Part.arms word).Leads d s := by
  obtain deep | ⟨b, s₁, ran, deep⟩ := exhausts_parseArms.mp deep
  · obtain ⟨opening, s₁, rfl, opens, deep⟩ := exhausts_parseArm.mp deep
    obtain deep | ⟨c, s₂, ran, closing, s₃, rfl, closes, deep⟩ := deep
    · exact ⟨_, _, _, d + 1, .condition opens, rfl, deep⟩
    · exact ⟨_, _, _, d, .governed opens ⟨d, ran⟩ closes, rfl, runsOut_statement.mp deep⟩
  · obtain ⟨further, mem, ws, s₂, rfl, introduced, deep⟩ | ⟨t, s₂, rfl, isElse, notIf, deep⟩ :=
      exhausts_furtherArms.mp deep
    · exact ⟨_, _, _, d + 1, .furtherArm ⟨d, ran⟩ mem introduced, rfl, deep⟩
    · exact ⟨_, _, _, d, .otherwise ⟨d, ran⟩ isElse notIf, rfl, runsOut_statement.mp deep⟩

theorem leads_of_expression (deep : Exhausts (parseExpression (within d)) s) :
    Part.expression.Leads d s := by
  obtain deep | ⟨n, s₁, ran, deep⟩ := exhausts_parseExpression.mp deep
  · exact ⟨_, _, _, d + 1, .item, rfl, deep⟩
  · obtain ⟨comma, s₂, rfl, separated, deep⟩ := (exhausts_furtherItems _ s₁).mp deep
    exact ⟨_, _, _, d + 1, .furtherItem ⟨d, ran⟩ separated, rfl, deep⟩

theorem leads_of_assignment (deep : Exhausts (parseAssignment (within d)) s) :
    Part.assignment.Leads d s := by
  obtain deep | ⟨n, s₁, ran, op, mem, t, s₂, rfl, spelled, deep⟩ :=
    exhausts_parseAssignment.mp deep
  · exact ⟨_, _, _, d + 1, .target, rfl, deep⟩
  · exact ⟨_, _, _, d, .assigned ⟨d, ran⟩ mem spelled, rfl, runsOut_assignment.mp deep⟩

theorem leads_of_conditional (deep : Exhausts (parseConditional (within d)) s) :
    Part.conditional.Leads d s := by
  obtain deep | ⟨n, s₁, ran, choice⟩ := exhausts_parseConditional.mp deep
  · exact ⟨_, _, _, d + 1, .asked, rfl, deep⟩
  obtain ⟨question, s₂, rfl, asks, deep⟩ | ⟨op, mem, t, s₂, rfl, spelled, deep⟩ := choice
  · obtain deep | ⟨y, s₃, chosen, colon, s₄, rfl, divides, deep⟩ := deep
    · exact ⟨_, _, _, d, .yes ⟨d, ran⟩ asks, rfl, runsOut_conditional.mp deep⟩
    · exact ⟨_, _, _, d, .no ⟨d, ran⟩ asks (finds_conditional.mp ⟨d, chosen⟩) divides, rfl,
        runsOut_conditional.mp deep⟩
  · exact ⟨_, _, _, d, .default ⟨d, ran⟩ mem spelled, rfl, runsOut_conditional.mp deep⟩

theorem links_progress (ops : List BinaryOp) (levels : List (List BinaryOp)) :
    Progresses (link ops (parseOperands levels (within d))) :=
  link_progresses (foldr_leftChain_takes (sound_within d) levels)

theorem leads_of_chain {levels : List (List BinaryOp)}
    (deep : Exhausts (parseOperands levels (within d)) s) : (Part.chain levels).Leads d s := by
  cases levels with
  | nil => exact ⟨_, _, _, d, .alone, rfl, runsOut_operand.mp deep⟩
  | cons ops levels =>
      obtain deep | ⟨n, s₁, ran, deep⟩ := exhausts_leftChain.mp deep
      · exact ⟨_, _, _, d + 1, .tighter, rfl, deep⟩
      · obtain ⟨op, mem, t, s₂, rfl, spelled, deep⟩ :=
          (exhausts_links (links_progress ops levels)).mp deep
        exact ⟨_, _, _, d + 1, .joined ⟨d, ran⟩ mem spelled, rfl, deep⟩

theorem leads_of_operand (deep : Exhausts (parseOperand (within d)) s) :
    Part.operand.Leads d s := by
  obtain ⟨op, mem, t, s₁, rfl, spelled, deep⟩ | ⟨plain, deep⟩ := exhausts_parseOperand.mp deep
  · exact ⟨_, _, _, d, .prefixed mem spelled, rfl, runsOut_operand.mp deep⟩
  · exact ⟨_, _, _, d + 1, .unprefixed plain, rfl, deep⟩

theorem leads_of_update (deep : Exhausts (parseUpdate (within d)) s) :
    Part.update.Leads d s := by
  obtain ⟨op, mem, t, s₁, rfl, spelled, deep⟩ | ⟨plain, deep⟩ := exhausts_parseUpdate.mp deep
  · exact ⟨_, _, _, d + 1, .stepped mem spelled, rfl, deep⟩
  · exact ⟨_, _, _, d + 1, .unstepped plain, rfl, deep⟩

theorem leads_of_call (deep : Exhausts (parseCall (within d)) s) : Part.call.Leads d s := by
  obtain deep | ⟨n, s₁, ran, deep⟩ := exhausts_parseCall.mp deep
  · exact ⟨_, _, _, d + 1, .callee, rfl, deep⟩
  · exact ⟨_, _, _, d + 1, .behind ⟨d, ran⟩, rfl, deep⟩

theorem leads_of_suffixes (deep : Exhausts (many (parseSuffix (within d))) s) :
    Part.suffixes.Leads d s := by
  obtain deep | ⟨x, s₁, ran, deep⟩ :=
    (exhausts_many (parseSuffix_progresses (sound_within d))).mp deep
  · obtain ⟨opening, s₁, rfl, opens, some_argument, deep⟩ | ⟨t, s₁, rfl, opens, deep⟩ :=
      exhausts_parseSuffix.mp deep
    · exact ⟨_, _, _, d + 1, .arguments opens some_argument, rfl, deep⟩
    · exact ⟨_, _, _, d + 1, .index (.inl rfl) opens, rfl, deep⟩
  · exact ⟨_, _, _, d + 1, .furtherSuffix ⟨d, ran⟩, rfl, deep⟩

theorem leads_of_access (deep : Exhausts (parseAccess (within d)) s) :
    Part.access.Leads d s := by
  obtain ⟨word, s₁, rfl, isNew, deep⟩ | ⟨plain, deep | ⟨n, s₁, ran, deep⟩⟩ :=
    exhausts_parseAccess.mp deep
  · exact ⟨_, _, _, d, .new isNew, rfl, runsOut_access.mp deep⟩
  · exact ⟨_, _, _, d + 1, .object plain, rfl, deep⟩
  · exact ⟨_, _, _, d + 1, .reached plain ⟨d, ran⟩, rfl, deep⟩

theorem leads_of_members (deep : Exhausts (many (parseMember (within d))) s) :
    Part.members.Leads d s := by
  obtain deep | ⟨x, s₁, ran, deep⟩ :=
    (exhausts_many (parseMember_progresses (sound_within d))).mp deep
  · obtain ⟨t, s₁, rfl, opens, deep⟩ := exhausts_parseMember.mp deep
    exact ⟨_, _, _, d + 1, .index (.inr rfl) opens, rfl, deep⟩
  · exact ⟨_, _, _, d + 1, .furtherMember ⟨d, ran⟩, rfl, deep⟩

theorem leads_of_atom (deep : Exhausts (parseAtom (within d)) s) : Part.atom.Leads d s := by
  obtain ⟨opening, s₁, rfl, opens, deep⟩ := exhausts_parseAtom.mp deep
  exact ⟨_, _, _, d + 1, .paren opens, rfl, deep⟩

/-- Whatever runs out of levels does so because of something that it comes to read. -/
theorem Part.RunsOut.leads (deep : X.RunsOut (d + 1) s) : X.Leads d s := by
  cases X with
  | body => exact leads_of_body deep
  | statement => exact leads_of_statement deep
  | declarations => exact leads_of_declarations deep
  | arms word => exact leads_of_arms deep
  | expression => exact leads_of_expression deep
  | assignment => exact leads_of_assignment deep
  | conditional => exact leads_of_conditional deep
  | chain levels => exact leads_of_chain deep
  | operand => exact leads_of_operand deep
  | update => exact leads_of_update deep
  | call => exact leads_of_call deep
  | suffixes => exact leads_of_suffixes deep
  | access => exact leads_of_access deep
  | members => exact leads_of_members deep
  | atom => exact leads_of_atom deep

/-- What comes to read something that runs out of levels runs out of them itself. -/
theorem Descends.runsOut (step : Descends X s c Y s')
    (deep : ∀ e, e + c + Y.inOperand.toNat = d + 1 + X.inOperand.toNat → Y.RunsOut e s') :
    X.RunsOut (d + 1) s := by
  have rounds : Progresses (parseStatement (within d)) :=
    statement_progresses (soundStatements_within (d + 1))
  cases step with
  | first => exact (exhausts_many rounds).mpr (.inl (deep (d + 1) rfl))
  | next found =>
      exact (exhausts_many rounds).mpr (found.exhausts_or_some rises_parseStatement
        (deep (d + 1) rfl))
  | block opens =>
      exact exhausts_parseStatement.mpr (.inl ⟨opens, runsOut_body.mpr (deep d rfl)⟩)
  | var isVar => exact exhausts_parseStatement.mpr (.inr (.inl ⟨isVar, deep (d + 1) rfl⟩))
  | armed isIf =>
      exact exhausts_parseStatement.mpr (.inr (.inr (.inl ⟨isIf, deep (d + 1) rfl⟩)))
  | expression notClosing notEmpty notBlock notVar notIf =>
      exact exhausts_parseStatement.mpr (.inr (.inr (.inr
        ⟨⟨notClosing, notEmpty, notBlock, notVar, notIf⟩, deep (d + 1) rfl⟩)))
  | value isName assigned =>
      exact exhausts_parseDeclarators.mpr (.inl (exhausts_parseDeclarator.mpr
        ⟨_, _, _, rfl, isName, assigned, deep (d + 1) rfl⟩))
  | alsoDeclared found separated =>
      exact exhausts_parseDeclarators.mpr (found.exhausts_or rises_parseDeclarator
        (exhausts_furtherDeclarators.mpr ⟨_, _, rfl, separated, deep (d + 1) rfl⟩))
  | condition opens =>
      exact exhausts_parseArms.mpr (.inl (exhausts_parseArm.mpr
        ⟨_, _, rfl, opens, .inl (deep (d + 1) rfl)⟩))
  | governed opens found closes =>
      exact exhausts_parseArms.mpr (.inl (exhausts_parseArm.mpr ⟨_, _, rfl, opens,
        found.exhausts_or_some rises_parseExpression
          ⟨_, _, rfl, closes, runsOut_statement.mpr (deep d rfl)⟩⟩))
  | furtherArm found mem introduced =>
      exact exhausts_parseArms.mpr (found.exhausts_or (rises_parseArm _)
        (exhausts_furtherArms.mpr (.inl ⟨_, mem, _, _, rfl, introduced, deep (d + 1) rfl⟩)))
  | otherwise found isElse notIf =>
      exact exhausts_parseArms.mpr (found.exhausts_or (rises_parseArm _)
        (exhausts_furtherArms.mpr (.inr
          ⟨_, _, rfl, isElse, notIf, runsOut_statement.mpr (deep d rfl)⟩)))
  | item => exact exhausts_parseExpression.mpr (.inl (deep (d + 1) rfl))
  | furtherItem found separated =>
      exact exhausts_parseExpression.mpr (found.exhausts_or_some rises_parseAssignment
        ((exhausts_furtherItems _ _).mpr ⟨_, _, rfl, separated, deep (d + 1) rfl⟩))
  | target => exact exhausts_parseAssignment.mpr (.inl (deep (d + 1) rfl))
  | assigned found mem spelled =>
      exact exhausts_parseAssignment.mpr (found.exhausts_or_some rises_parseConditional
        ⟨_, mem, _, _, rfl, spelled, runsOut_assignment.mpr (deep d rfl)⟩)
  | asked => exact exhausts_parseConditional.mpr (.inl (deep (d + 1) rfl))
  | yes found asks =>
      exact exhausts_parseConditional.mpr (found.exhausts_or_some rises_parseChain
        (.inl ⟨_, _, rfl, asks, .inl (runsOut_conditional.mpr (deep d rfl))⟩))
  | no found asks chosen divides =>
      exact exhausts_parseConditional.mpr (found.exhausts_or_some rises_parseChain
        (.inl ⟨_, _, rfl, asks, (finds_conditional.mpr chosen).exhausts_or_some
          rises_conditional
          ⟨_, _, rfl, divides, runsOut_conditional.mpr (deep d rfl)⟩⟩))
  | default found mem spelled =>
      exact exhausts_parseConditional.mpr (found.exhausts_or_some rises_parseChain
        (.inr ⟨_, mem, _, _, rfl, spelled, runsOut_conditional.mpr (deep d rfl)⟩))
  | alone => exact runsOut_operand.mpr (deep d rfl)
  | tighter => exact exhausts_leftChain.mpr (.inl (deep (d + 1) rfl))
  | joined found mem spelled =>
      exact exhausts_leftChain.mpr (found.exhausts_or_some (rises_parseOperands _)
        ((exhausts_links (links_progress _ _)).mpr ⟨_, mem, _, _, rfl, spelled, deep (d + 1) rfl⟩))
  | prefixed mem spelled =>
      exact exhausts_parseOperand.mpr (.inl
        ⟨_, mem, _, _, rfl, spelled, runsOut_operand.mpr (deep d rfl)⟩)
  | unprefixed plain => exact exhausts_parseOperand.mpr (.inr ⟨plain, deep (d + 1) rfl⟩)
  | stepped mem spelled =>
      exact exhausts_parseUpdate.mpr (.inl ⟨_, mem, _, _, rfl, spelled, deep (d + 1) rfl⟩)
  | unstepped plain => exact exhausts_parseUpdate.mpr (.inr ⟨plain, deep (d + 1) rfl⟩)
  | callee => exact exhausts_parseCall.mpr (.inl (deep (d + 1) rfl))
  | behind found =>
      exact exhausts_parseCall.mpr (found.exhausts_or_some rises_parseAccess (deep (d + 1) rfl))
  | arguments opens some_argument =>
      exact (exhausts_many (parseSuffix_progresses (sound_within d))).mpr (.inl
        (exhausts_parseSuffix.mpr (.inl
          ⟨_, _, rfl, opens, some_argument, deep (d + 1) rfl⟩)))
  | furtherSuffix found =>
      exact (exhausts_many (parseSuffix_progresses (sound_within d))).mpr
        (found.exhausts_or_some rises_parseSuffix (deep (d + 1) rfl))
  | new word =>
      exact exhausts_parseAccess.mpr (.inl ⟨_, _, rfl, word, runsOut_access.mpr (deep d rfl)⟩)
  | object plain => exact exhausts_parseAccess.mpr (.inr ⟨plain, .inl (deep (d + 1) rfl)⟩)
  | reached plain found =>
      exact exhausts_parseAccess.mpr (.inr ⟨plain, found.exhausts_or_some rises_parseAtom
        (deep (d + 1) rfl)⟩)
  | index takes opens =>
      obtain rfl | rfl := takes
      · exact (exhausts_many (parseSuffix_progresses (sound_within d))).mpr (.inl
          (exhausts_parseSuffix.mpr (.inr ⟨_, _, rfl, opens, deep (d + 1) rfl⟩)))
      · exact (exhausts_many (parseMember_progresses (sound_within d))).mpr (.inl
          (exhausts_parseMember.mpr ⟨_, _, rfl, opens, deep (d + 1) rfl⟩))
  | furtherMember found =>
      exact (exhausts_many (parseMember_progresses (sound_within d))).mpr
        (found.exhausts_or_some rises_parseMember (deep (d + 1) rfl))
  | paren opens => exact exhausts_parseAtom.mpr ⟨_, _, rfl, opens, deep (d + 1) rfl⟩

/-! ## From one step to all -/

/-- Whatever runs out of levels comes to something that stands further in than there are levels. -/
theorem Part.RunsOut.reaches (X : Part) (d : Nat) (s : Tokens) (deep : X.RunsOut d s) :
    ∃ levels Y s', Reaches X s levels Y s' ∧
      d + X.inOperand.toNat ≤ levels + Y.inOperand.toNat := by
  cases d with
  | zero => exact ⟨0, X, s, .here, by simp⟩
  | succ d =>
      obtain ⟨c, Y, s₁, e, step, count, deep⟩ := deep.leads
      have shorter := step.falls
      have bounds := step.levels
      obtain ⟨levels, Z, s₂, rest, le⟩ := Part.RunsOut.reaches Y e s₁ deep
      exact ⟨c + levels, Z, s₂, .further step rest, by omega⟩
termination_by (d, s.pending.length, X.rank)
decreasing_by
  simp only [Prod.lex_def]
  omega

theorem Reaches.runsOut {levels : Nat} (reaches : Reaches X s levels Y s')
    (le : d + X.inOperand.toNat ≤ levels + Y.inOperand.toNat) : X.RunsOut d s := by
  induction reaches generalizing d with
  | here =>
      have nothing_left : d = 0 := by omega
      cases nothing_left
      trivial
  | further step _ ih =>
      cases d with
      | zero => trivial
      | succ d => exact step.runsOut fun e count => ih (by omega)

end Scriptlet.Grammar

namespace Scriptlet.Parse

open Grammar

theorem exhausts_program {s : Tokens} :
    Exhausts Parse.program s ↔ Part.body.RunsOut (maxNesting + 1) s := by
  refine exhausts_bind_left fun statements s => ?_
  refine mt (exhausts_bind_left fun _ => not_exhausts_pure _).mp ?_
  obtain ⟨_ | ⟨t, ts⟩, stop⟩ := s
  · exact not_exhausts_pure () _
  · have other : ParseError.Cause.unexpected ≠ .tooDeep := by nofun
    exact not_exhausts_refuse other (some t) ⟨ts, stop⟩

/-- A program is refused as nested too deep exactly if something in it stands inside more levels
    of nesting than the limit, or if an operand stands inside as many. -/
theorem program_tooDeep_iff (s : Tokens) :
    Exhausts Parse.program s ↔ ∃ levels X s', Reaches .body s levels X s' ∧
      (maxNesting < levels ∨ levels = maxNesting ∧ X.inOperand = true) := by
  have reached (levels : Nat) (X : Part) :
      maxNesting + 1 + Part.body.inOperand.toNat ≤ levels + X.inOperand.toNat ↔
        maxNesting < levels ∨ levels = maxNesting ∧ X.inOperand = true := by
    cases X.inOperand with
    | false =>
        simp only [Part.inOperand, Bool.toNat_false, Bool.false_eq_true, and_false, or_false]
        omega
    | true =>
        simp only [Part.inOperand, Bool.toNat_false, Bool.toNat_true, and_true]
        omega
  rw [exhausts_program]
  constructor
  · intro deep
    obtain ⟨levels, X, s', reaches, le⟩ := deep.reaches
    exact ⟨levels, X, s', reaches, (reached levels X).mp le⟩
  · rintro ⟨levels, X, s', reaches, far⟩
    exact reaches.runsOut ((reached levels X).mpr far)

/-- The number of parentheses around a number that is one too many. -/
theorem program_tooDeep_iff_parens :
    let parens (n : Nat) := Tokens.ofSource (.ofString (String.ofList
      (List.replicate n '(' ++ '1' :: List.replicate n ')')))
    (∃ levels X s', Reaches .body (parens 64) levels X s' ∧
      (maxNesting < levels ∨ levels = maxNesting ∧ X.inOperand = true)) ∧
    ¬∃ levels X s', Reaches .body (parens 63) levels X s' ∧
      (maxNesting < levels ∨ levels = maxNesting ∧ X.inOperand = true) := by
  intro parens
  have refused : Exhausts Parse.program (parens 64) := by decide +kernel
  have accepted : ¬Exhausts Parse.program (parens 63) := by decide +kernel
  exact ⟨(program_tooDeep_iff _).mp refused, mt (program_tooDeep_iff _).mpr accepted⟩

end Scriptlet.Parse
