import Scriptlet.Proofs.Grammar.Completeness
import Scriptlet.Proofs.Grammar.Nesting
import Scriptlet.Proofs.Node.Unplaced

/-! # Which rows of tokens are expressions

The parser of expressions accepts a whole row of tokens exactly if the grammar derives it
with the levels of nesting there are, and finds the tree of the derivation. Rows that are
derived only with more levels are refused as nested too deep.
-/

namespace Scriptlet.Grammar

open Parse

variable {d : Nat} {ts : List Token} {stop : Location} {n : Node}

theorem parseExpression_eq_ok_iff (lexical : ∀ t ∈ ts, t.Lexical) :
    parseExpression (within d) ⟨ts, stop⟩ = .ok (some n) ⟨[], stop⟩ ↔
      Derives false d .expression ts n := by
  constructor
  · intro ran
    obtain ⟨us, same, derived⟩ := parseExpression_takes (sound_within d) ran
    have row : ts = us := by simpa [Tokens.prepend] using same
    rw [row]
    exact derived
  · intro derived
    have ran := derived.completes lexical ⟨[], stop⟩ (stops_of_nil rfl)
    simpa [Tokens.prepend] using ran

/-- The parser of expressions returns the tree of a row of tokens that the grammar
    derives, unless the nesting is too deep for it, and returns nothing else. -/
theorem parseExpression_exact (lexical : ∀ t ∈ ts, t.Lexical) (n : Node) :
    (parseExpression nested ⟨ts, stop⟩ = .ok (some n) ⟨[], stop⟩ →
      ∃ levels, Derives false levels .expression ts n) ∧
    ((∃ levels, Derives false levels .expression ts n) →
      parseExpression nested ⟨ts, stop⟩ = .ok (some n) ⟨[], stop⟩ ∨
      ∃ e rest, parseExpression nested ⟨ts, stop⟩ = .error e rest ∧ e.cause = .tooDeep) := by
  refine ⟨fun ran => ⟨maxNesting, (parseExpression_eq_ok_iff lexical).mp ran⟩, ?_⟩
  rintro ⟨levels, derived⟩
  have enough := derived.mono (Nat.le_max_left levels maxNesting)
  have ran : parseExpression (within _) ⟨ts, stop⟩ = .ok (some n) ⟨[], stop⟩ :=
    (parseExpression_eq_ok_iff lexical).mpr enough
  obtain same | deep := rises_parseExpression.below (Nat.le_max_right levels maxNesting) ⟨ts, stop⟩
  · exact .inl (same.trans ran)
  · exact .inr deep

/-! ## The two readings of `new a.b` -/

namespace NewMember

def word : Token := { kind := .symbol, text := "new", location := ⟨1, 1⟩ }

def object : Token := { kind := .symbol, text := "a", location := ⟨1, 5⟩ }

def dot : Token := { kind := .operator, text := ".", location := ⟨1, 6⟩ }

def name : Token := { kind := .symbol, text := "b", location := ⟨1, 7⟩ }

def row : List Token := [word, object, dot, name]

theorem tokens_eq : (Source.ofString "new a.b").tokens.1 = row := by
  decide +kernel

theorem lexical : ∀ t ∈ row, t.Lexical := by
  rw [← tokens_eq]
  exact Source.lexical_tokens

theorem opens : dot.Opens .dot :=
  ⟨by decide, by decide⟩

/-- The member belongs to the operand. -/
theorem derives_inner : Derives false 2 .expression row
    (.prefixed .new (.access .dot (.symbol "a" ⟨1, 5⟩) (.symbol "b" ⟨1, 7⟩) ⟨1, 6⟩) ⟨1, 1⟩) := by
  have member : Derives false 0 .object ([object] ++ [dot, name]) _ :=
    .member (.inl rfl) (.bare (.name (by decide))) (by decide) opens (by decide) (by decide)
  exact (Derives.uncalled (.new (by decide) (.reached member))).expression_of_call

/-- The member belongs to the new object. -/
theorem derives_outer : Derives true 2 .expression row
    (.access .dot (.prefixed .new (.symbol "a" ⟨1, 5⟩) ⟨1, 1⟩) (.symbol "b" ⟨1, 7⟩) ⟨1, 6⟩) := by
  have created : Derives true 1 .access [word, object] _ :=
    .new (by decide) (.reached (.bare (.name (by decide))))
  have member : Derives true 1 .call ([word, object] ++ [dot, name]) _ :=
    .member (.inr rfl) (.uncalled created) (by decide) opens (by decide) (by decide)
  exact member.expression_of_call

end NewMember

theorem parseExpression_exact_newMember :
    (∀ t ∈ NewMember.row, t.Lexical) ∧
    (parseExpression nested ⟨NewMember.row, ⟨1, 8⟩⟩ =
        .ok (some (.prefixed .new
          (.access .dot (.symbol "a" ⟨1, 5⟩) (.symbol "b" ⟨1, 7⟩) ⟨1, 6⟩) ⟨1, 1⟩)) ⟨[], ⟨1, 8⟩⟩ ∨
      ∃ e rest, parseExpression nested ⟨NewMember.row, ⟨1, 8⟩⟩ = .error e rest ∧
        e.cause = .tooDeep) :=
  ⟨NewMember.lexical, (parseExpression_exact NewMember.lexical _).2 ⟨2, NewMember.derives_inner⟩⟩

/-- The grammar that admits both readings of a member behind an operand of `new` derives
    trees that the parser does not return. -/
theorem not_parseExpression_exact_ambiguous :
    ¬∀ (ts : List Token) (stop : Location) (n : Node), (∀ t ∈ ts, t.Lexical) →
      (∃ levels, Derives true levels .expression ts n) →
      (∃ m, parseExpression nested ⟨ts, stop⟩ = .ok (some m) ⟨[], stop⟩ ∧
        m.unplaced = n.unplaced) ∨
      ∃ e rest, parseExpression nested ⟨ts, stop⟩ = .error e rest ∧ e.cause = .tooDeep := by
  intro exact_
  have ran : parseExpression nested ⟨NewMember.row, ⟨1, 8⟩⟩ = _ :=
    (parseExpression_eq_ok_iff NewMember.lexical).mpr (NewMember.derives_inner.mono (by decide))
  obtain ⟨m, found, same⟩ | ⟨e, rest, failed, -⟩ :=
    exact_ _ ⟨1, 8⟩ _ NewMember.lexical ⟨2, NewMember.derives_outer⟩
  · rw [ran] at found
    cases found
    cases same
  · rw [ran] at failed
    cases failed

end Scriptlet.Grammar
