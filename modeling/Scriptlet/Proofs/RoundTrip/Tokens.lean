import Scriptlet.Lexer
import Scriptlet.Proofs.Grammar.Conservation
import Scriptlet.Proofs.Grammar.StatesCompleteness
import Scriptlet.Proofs.Grammar.Written

/-! # Programs and their tokens

An accepted program is written with the tokens that it was read from, apart from semicolons,
parentheses and the braces that are missing at the end of the text. The tokens that it is
written with are accepted again, and give the same program apart from places.
-/

namespace Scriptlet

/-- The lexemes that a program is written with. -/
def Program.lexemes (program : Program) : List Lexeme :=
  program.flatMap fun n => Piece.lexemes n.pieces

/-- The same program, with every node at the start of a text. -/
def Program.unplaced (program : Program) : Program :=
  program.map Node.unplaced

/-- All tokens that a lexer has to offer. -/
def Tokens.ofLexer (l : Lexer) : Tokens :=
  let (pending, last) := l.readAll
  { pending, stop := last.source.location }

theorem Tokens.ofLexer_unreadAll (ts : List Token) :
    ofLexer (Lexer.unreadAll { source := .ofString "" } ts) = ⟨ts, .start⟩ := by
  have nothing : (Source.ofString "").tokens = ([], .ofString "") := by decide +kernel
  simp [ofLexer, Lexer.unreadAll, Lexer.readAll, nothing]
  rfl

theorem Program.lexemes_eq (p : Program) : p.lexemes = Piece.lexemes (Node.bodyPieces p) := by
  induction p with
  | nil => rfl
  | cons n p ih =>
      have rest : p.flatMap (fun n => Piece.lexemes n.pieces) = _ := ih
      simp [lexemes, Node.bodyPieces, rest]

theorem Program.lexemes_of_unplaced {p q : Program} (same : q.unplaced = p.unplaced) :
    q.lexemes = p.lexemes := by
  have lexemes_unplaced (p : Program) : p.unplaced.lexemes = p.lexemes := by
    simp [lexemes, unplaced, List.flatMap_map, Node.pieces_unplaced]
  rw [← lexemes_unplaced q, same, lexemes_unplaced]

namespace Grammar

open Parse

theorem program_of_states {p : Program} {ts : List Token} {place : Location}
    (stated : States true (maxNesting + 1) .body ts (.block p place))
    (lexical : ∀ t ∈ ts, t.Lexical) (stop : Location) :
    Parse.program ⟨ts, stop⟩ = .ok p ⟨[], stop⟩ := by
  obtain ⟨_, _, same, runs⟩ := stated.completes lexical
  cases same
  have repeated := runs ⟨[], stop⟩ (by simp [Tokens.Next])
  rw [show Tokens.prepend ⟨[], stop⟩ ts = ⟨ts, stop⟩ by simp [Tokens.prepend]] at repeated
  exact bind_of_ok (repeated.ends rfl)

/-- What an accepted program is written with is tidy. -/
theorem tidy_of_program {s s' : Tokens} {p : Program} (accepted : Parse.program s = .ok p s')
    (lexical : ∀ t ∈ s.pending, t.Lexical) : ∀ n ∈ p, TidyStatement n.pieces :=
  (program_takes accepted).2.tidy lexical

theorem lexical_of_program {s s' : Tokens} {p : Program} (accepted : Parse.program s = .ok p s')
    (lexical : ∀ t ∈ s.pending, t.Lexical) : ∀ l ∈ p.lexemes, l.Lexical := by
  intro l mem
  obtain ⟨n, statement, mem⟩ := List.mem_flatMap.mp mem
  exact ((tidy_of_program accepted lexical n statement).written l mem).lexical

/-- An accepted program is written with the firm lexemes that it was read from, and with
    the braces that are missing at the end of the text. -/
theorem firm_of_program {s s' : Tokens} {p : Program} (accepted : Parse.program s = .ok p s')
    (lexical : ∀ t ∈ s.pending, t.Lexical) :
    ∃ missing, Token.firm s.pending ++ List.replicate missing (.separator '\x7d') =
      Lexeme.firm p.lexemes := by
  obtain ⟨repeated, nothing⟩ := many_of_program accepted
  have level := conservesStatements_within (maxNesting + 1)
  have collects := collects_of_many (statement_progresses level.toSoundStatements) repeated
  obtain ⟨ts, missing, rfl, firm, -⟩ := conserves_body level collects lexical
  refine ⟨missing, ?_⟩
  rw [Tokens.pending_prepend, nothing, List.append_nil, firm, p.lexemes_eq]
  rfl

/-- An accepted program is written with the content that it was read from. -/
theorem content_of_program {s s' : Tokens} {p : Program} (accepted : Parse.program s = .ok p s')
    (lexical : ∀ t ∈ s.pending, t.Lexical) :
    Token.content s.pending = Lexeme.content p.lexemes := by
  obtain ⟨missing, firm⟩ := firm_of_program accepted lexical
  have braces : Lexeme.content (List.replicate missing (.separator '\x7d')) = [] :=
    List.filter_replicate_of_neg (by decide)
  calc Token.content s.pending
      = Lexeme.content (Token.firm s.pending) := (Lexeme.content_firm _).symm
    _ = Lexeme.content (Token.firm s.pending ++ List.replicate missing (.separator '\x7d')) := by
        rw [Lexeme.content_append, braces, List.append_nil]
    _ = Lexeme.content p.lexemes := by rw [firm, Lexeme.content_firm]

theorem program_of_spelled {s s' : Tokens} {p : Program} (accepted : Parse.program s = .ok p s')
    (lexical : ∀ t ∈ s.pending, t.Lexical) {us : List Token}
    (spelled : us.map (·.toLexeme) = p.lexemes) (stop : Location) :
    ∃ q, Parse.program ⟨us, stop⟩ = .ok q ⟨[], stop⟩ ∧ q.unplaced = p.unplaced := by
  have spells : Spell us (Node.bodyPieces p) := spelled.trans p.lexemes_eq
  obtain ⟨m, stated, same⟩ := (program_takes accepted).2.statesBack us spells
  obtain ⟨q, place, rfl⟩ := stated.body_shape
  have lexicalAgain : ∀ u ∈ us, u.Lexical := by
    intro u mem
    refine lexical_of_program accepted lexical u.toLexeme ?_
    rw [← spelled]
    exact List.mem_map_of_mem mem
  refine ⟨q, program_of_states stated lexicalAgain stop, ?_⟩
  simp only [Node.unplaced, Node.unplacedAll_eq_map, Node.block.injEq, and_true] at same
  exact same

end Grammar

/-- Is this row of tokens a program with the property `check`? -/
def Parse.accepts (s : Tokens) (check : Program → Bool) : Bool :=
  match Parse.program s with
  | .ok p _ => check p
  | .error _ _ => false

theorem Parse.exists_of_accepts {s : Tokens} (check : Program → Bool)
    (h : Parse.accepts s check = true) :
    ∃ p rest, Parse.program s = .ok p rest ∧ check p = true := by
  unfold accepts at h
  split at h
  · next p rest ran => exact ⟨p, rest, ran, h⟩
  · cases h

/-- Parsing neither loses nor invents a token, and keeps their order: an accepted program is
    written with the operators, symbols, numbers and strings of its source. Of the separators
    only semicolons and parentheses can differ, and closing braces that are missing where the
    source ends. -/
theorem Parse.program_conserves {source : Source} {p : Program} {rest : Tokens}
    (accepted : Parse.program (.ofSource source) = .ok p rest) :
    let read := source.tokens.1.map (·.toLexeme)
    let isWord := fun l : Lexeme => decide (l.kind ∈ [.operator, .symbol, .number, .string])
    read.filter isWord = p.lexemes.filter isWord ∧
    ∃ missing, Lexeme.firm read ++ List.replicate missing (.separator '\x7d') =
      Lexeme.firm p.lexemes := by
  intro read isWord
  refine ⟨?_, Grammar.firm_of_program accepted Source.lexical_tokens⟩
  have words (ls : List Lexeme) : (Lexeme.content ls).filter isWord = ls.filter isWord := by
    rw [Lexeme.content, List.filter_filter]
    refine List.filter_congr fun l _ => ?_
    cases kind : l.kind <;> simp [isWord, kind]
  have content : Lexeme.content read = _ :=
    Grammar.content_of_program accepted Source.lexical_tokens
  rw [← words read, content, words]

/-- Parentheses and semicolons that are put in or left out, and two missing braces. -/
theorem Parse.program_conserves_unclosed :
    let source := Source.ofString "\x7b if ((a[1])) \x7b b;; \x7d else if (c) \x7b d = (-e)"
    ∃ p rest, Parse.program (.ofSource source) = .ok p rest ∧
      p.text = "\x7bif ((a[1])) \x7bb; ; \x7d else if (c) \x7bd=(-e); \x7d \x7d\n" ∧
      ∃ missing, Lexeme.firm (source.tokens.1.map (·.toLexeme)) ++
        List.replicate missing (.separator '\x7d') = Lexeme.firm p.lexemes := by
  intro source
  obtain ⟨p, rest, accepted, text⟩ := Parse.exists_of_accepts (s := .ofSource source)
    (fun p => p.text = "\x7bif ((a[1])) \x7bb; ; \x7d else if (c) \x7bd=(-e); \x7d \x7d\n")
    (by decide +kernel)
  exact ⟨p, rest, accepted, by simpa using text, (Parse.program_conserves accepted).2⟩

/-- A program that was accepted is found again, apart from places, when exactly the tokens
    it is written with are given back to a lexer at the end of its source. -/
theorem Parse.program_unreadAll {text : String} {p : Program} {rest : Tokens}
    (accepted : Parse.program (.ofSource (.ofString text)) = .ok p rest) {us : List Token}
    (spelled : us.map (·.toLexeme) = p.lexemes) :
    ∃ q last, Parse.program (.ofLexer (Lexer.unreadAll { source := .ofString "" } us)) =
        .ok q last ∧ q.unplaced = p.unplaced := by
  obtain ⟨q, ran, same⟩ := Grammar.program_of_spelled accepted Source.lexical_tokens spelled .start
  rw [Tokens.ofLexer_unreadAll]
  exact ⟨q, _, ran, same⟩

theorem Parse.program_unreadAll_else :
    ∃ p rest us q last,
      Parse.program (.ofSource (.ofString "if (a) \x7b new b.c(d, 1) \x7d else e = -f++ ? g : h")) =
        .ok p rest ∧
      us.map (·.toLexeme) = p.lexemes ∧
      Parse.program (.ofLexer (Lexer.unreadAll { source := .ofString "" } us)) = .ok q last ∧
      q.unplaced = p.unplaced := by
  obtain ⟨p, rest, accepted, -⟩ := Parse.exists_of_accepts (s := .ofSource
    (.ofString "if (a) \x7b new b.c(d, 1) \x7d else e = -f++ ? g : h")) (fun _ => true)
    (by decide +kernel)
  have spelled : (p.lexemes.map fun l => { toLexeme := l, location := .start }).map
      (fun t : Token => t.toLexeme) = p.lexemes := by simp [Function.comp_def]
  obtain ⟨q, last, ran, same⟩ := Parse.program_unreadAll accepted spelled
  exact ⟨p, rest, _, q, last, accepted, spelled, ran, same⟩

end Scriptlet
