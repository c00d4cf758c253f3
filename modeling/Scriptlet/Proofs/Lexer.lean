import Mathlib.Logic.Relation
import Scriptlet.Lexer
import Scriptlet.Proofs.Gap

/-! # Reading loses nothing

Whatever is done with a lexer, its source only ever has tokens taken off it. So the source
stands in its text, and every read that asks the source passes a gap and a token. Once
there is no token left, there never is one again.
-/

namespace Scriptlet.Lexer

/-- What can be done with a lexer. -/
inductive Step (l : Lexer) : Lexer → Prop where
  | read : Step l l.read.2
  | peek : Step l l.peek.2
  | unread (t : Token) : Step l (l.unread t)
  | unreadAll (ts : List Token) : Step l (l.unreadAll ts)
  | readAll : Step l l.readAll.2

/-- A lexer comes out of another by any number of steps. -/
abbrev Runs : Lexer → Lexer → Prop := Relation.ReflTransGen Step

theorem read_of_idle {l : Lexer} (idle : l.pending = []) :
    l.read = (l.source.token.1, { source := l.source.token.2 }) := by
  simp [read, idle]

section Preserved

variable {P : Source → Prop} {l l' : Lexer}

theorem source_read (keeps : ∀ s, P s → P s.token.2) (h : P l.source) : P l.read.2.source := by
  cases pending : l.pending with
  | nil =>
      rw [read_of_idle pending]
      exact keeps _ h
  | cons t rest => simpa [read, pending] using h

theorem source_tokens (keeps : ∀ s : Source, P s → P s.token.2) {s : Source} (h : P s) :
    P s.tokens.2 := by
  fun_induction Source.tokens s with
  | case1 s t rest taken more last same ih =>
      have kept := keeps s h
      rw [taken] at kept
      rw [same] at ih
      exact ih kept
  | case2 s rest nothing =>
      have kept := keeps s h
      rw [nothing] at kept
      exact kept

/-- What taking a token preserves, every step preserves. -/
theorem Step.preserves (keeps : ∀ s, P s → P s.token.2) (step : Step l l') (h : P l.source) :
    P l'.source := by
  cases step with
  | read => exact source_read keeps h
  | peek =>
      have kept := source_read keeps h
      unfold Lexer.peek
      split
      · next same =>
          rw [same] at kept
          exact kept
      · next same =>
          rw [same] at kept
          exact kept
  | unread | unreadAll => exact h
  | readAll => exact source_tokens keeps h

theorem Runs.preserves (keeps : ∀ s, P s → P s.token.2) (runs : Runs l l') (h : P l.source) :
    P l'.source := by
  induction runs with
  | refl => exact h
  | tail _ step ih => exact step.preserves keeps ih

end Preserved

/-- At every point of a run over a text, a read that asks the source passes a gap and finds
    the next token of the text at its place. If it finds none, then the text has no more,
    and no later read that asks the source finds one either. -/
theorem read_lossless {text : String} {name : Option String} {l : Lexer}
    (reached : Runs { source := .ofString text name } l) (idle : l.pending = []) :
    l.source.before ++ l.source.remaining = text.toList ∧
    ((∃ t l' gap, l.read = (some t, l') ∧ l.source.Takes gap t.comments t l'.source) ∨
      ∃ l' gap comments tail, l.read = (none, l') ∧ l.source.Stalls gap comments tail ∧
        ∀ later, Runs l' later → later.pending = [] → later.read.1 = none) := by
  have within : l.source.Within text.toList :=
    reached.preserves (fun s within => (within.tokenAfter_cases []).1)
      (Source.within_ofString text name)
  refine ⟨within.whole, ?_⟩
  rw [read_of_idle idle]
  obtain ⟨-, gap, more, ⟨t, s', taken, same, takes⟩ | ⟨tail, s', taken, stalls, nothing⟩⟩ :=
    within.tokenAfter_cases []
  · refine .inl ⟨t, { source := s' }, gap, by rw [Source.token, taken], ?_⟩
    rw [same, List.nil_append]
    exact takes
  · refine .inr ⟨{ source := s' }, gap, more, tail, by rw [Source.token, taken], stalls, ?_⟩
    intro later runs idle'
    have ended : later.source.remaining = [] :=
      Runs.preserves (P := fun s => s.remaining = [])
        (fun s h => (Source.token_of_remaining_nil h).2) runs nothing
    rw [read_of_idle idle']
    exact (Source.token_of_remaining_nil ended).1

theorem read_lossless_comment :
    ∃ l : Lexer, Runs { source := .ofString "a /* b\n*/ .5 // c" } l ∧ l.pending = [] ∧
      ∃ t l' gap, l.read = (some t, l') ∧ l.source.Takes gap t.comments t l'.source := by
  let l : Lexer := { source := .ofString "a /* b\n*/ .5 // c" }
  have reached : Runs l l.read.2 := .single .read
  refine ⟨l.read.2, reached, rfl, ?_⟩
  obtain found | ⟨l', gap, comments, tail, nothing, -⟩ := (read_lossless reached rfl).2
  · exact found
  · have some_token : l.read.2.read.1.isSome = true := by decide +kernel
    rw [nothing] at some_token
    cases some_token

end Scriptlet.Lexer
