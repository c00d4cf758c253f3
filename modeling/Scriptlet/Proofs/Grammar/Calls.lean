import Scriptlet.Proofs.Grammar.Counting
import Scriptlet.Proofs.Grammar.Depth

/-! # Calls from outside

A parser that counts how deep it is nested is called from outside again and again, and some of
the calls fail. No call moves the counter, so every one of them begins at depth zero, and only
the tokens that are left tell it what went before.
-/

namespace Scriptlet

/-- What a parser can be asked for from outside. -/
inductive Call where
  | statement
  | block
  | program
  | expectEnd
  | synchronize
  | isAtEnd
  deriving Repr, DecidableEq

namespace Call

/-- What a call answers. -/
def Answer : Call → Type
  | statement => Option Node
  | block => Node
  | program => Program
  | expectEnd | synchronize => Unit
  | isAtEnd => Bool

/-- The trees in an answer. -/
def trees : (k : Call) → k.Answer → List Node
  | statement, found => Option.toList found
  | block, n => [n]
  | program, p => p
  | expectEnd, _ | synchronize, _ | isAtEnd, _ => []

/-- The answer of the language. -/
def parse : (k : Call) → Parse k.Answer
  | statement => Parse.statement
  | block => Parse.block
  | program => Parse.program
  | expectEnd => Parse.expectEnd
  | synchronize => modify Tokens.synchronize
  | isAtEnd => return (← Parse.peek).isNone

/-- The answer, with so many levels open to nesting. -/
def parseWithin (levels : Nat) : (k : Call) → Parse k.Answer
  | statement => Grammar.parseStatement (Grammar.within levels)
  | block => Grammar.parseBlock (Grammar.within levels)
  | program => do
      let statements ← Parse.many (Grammar.parseStatement (Grammar.within levels))
      Parse.expectEnd
      return statements
  | k => k.parse

theorem parseWithin_maxNesting (k : Call) : k.parseWithin maxNesting = k.parse := by
  cases k <;> rfl

/-- The answer of a parser with a counter. -/
def count : (k : Call) → Counted k.Answer
  | statement => Grammar.parseStatement Counted.inner
  | block => Grammar.parseBlock Counted.inner
  | program => do
      let statements ← Parse.many (Grammar.parseStatement Counted.inner)
      Parse.expectEnd
      return statements
  | expectEnd => Parse.expectEnd
  | synchronize => modify fun s => { s with tokens := s.tokens.synchronize }
  | isAtEnd => return (← Parse.peek).isNone

/-- The tokens that calls leave, one after the other. -/
def tokensAfter (history : List Call) (ts : Tokens) : Tokens :=
  history.foldl (fun ts k => leaves k.parse ts) ts

/-- The tokens and the counter that calls leave, one after the other. -/
def counterAfter (history : List Call) (s : Counter) : Counter :=
  history.foldl (fun s k => leaves k.count s) s

open Counted in
/-- At every depth, the parser with a counter answers like one with the levels that are left. -/
theorem count_mirrors (k : Call) (c : Nat) :
    Mirrors c k.count (k.parseWithin (maxNesting - c)) := by
  have inside := inner_inside c
  have mirrored := Mirrors.corresponds (c := c)
  cases k with
  | statement => exact (mirrored.parseStatement inside).of_map (by simp)
  | block => exact (mirrored.parseBlock inside).of_map (by simp)
  | program =>
      have statements := (mirrored.many (mirrored.parseStatement inside)).of_map (by simp)
      exact statements.bind fun found => (Mirrors.plain _).bind fun _ => .plain (return found)
  | expectEnd => exact .plain _
  | synchronize => exact fun _ => rfl
  | isAtEnd => exact Mirrors.plain (return (← Parse.peek).isNone)

/-- At depth zero, all levels are left. -/
theorem count_apply (k : Call) (ts : Tokens) : k.count ⟨ts, 0⟩ = Counted.lift k.parse ⟨ts, 0⟩ := by
  rw [k.count_mirrors 0 ts, Nat.sub_zero, parseWithin_maxNesting]

theorem counterAfter_eq (history : List Call) (ts : Tokens) :
    counterAfter history ⟨ts, 0⟩ = ⟨tokensAfter history ts, 0⟩ := by
  induction history generalizing ts with
  | nil => rfl
  | cons k history ih =>
      have first := (k.count_mirrors 0).leaves ts
      rw [Nat.sub_zero, parseWithin_maxNesting] at first
      rw [counterAfter, tokensAfter, List.foldl_cons, List.foldl_cons, first]
      exact ih _

theorem nesting_le {k : Call} {ts ts' : Tokens} {answer : k.Answer}
    (answered : k.parse ts = .ok answer ts') {n : Node} (mem : n ∈ k.trees answer) :
    n.nesting ≤ maxNesting := by
  cases k with
  | statement =>
      obtain rfl := Option.mem_toList.mp mem
      exact Grammar.nesting_le_of_statement answered
  | block =>
      obtain rfl := List.mem_singleton.mp mem
      exact Grammar.nesting_le_of_block answered
  | program => exact Grammar.nesting_le_of_program answered mem
  | expectEnd | synchronize | isAtEnd => cases mem

/-- No path in a tree that a call answers with, to whichever node inside it, nests more often
    than `maxNesting`. Whether it succeeds or fails, a call leaves the counter where it was, at
    every depth. So after any calls the counter is at zero, the tokens left are those that
    parsing level by level leaves, and whatever is asked for next is answered from these tokens
    alone. -/
theorem nesting_bounded_counter_restored :
    (∀ (k : Call) (ts ts' : Tokens) (answer : k.Answer), k.parse ts = .ok answer ts' →
      ∀ n ∈ k.trees answer, (∀ m ∈ n.subnodes, ∃ j, n.Path j m) ∧
        ∀ j m, n.Path j m → j ≤ maxNesting) ∧
    (∀ (k : Call) (s : Counter), (leaves k.count s).depth = s.depth) ∧
    ∀ (history : List Call) (ts : Tokens) (k : Call),
      let s := counterAfter history ⟨ts, 0⟩
      s = ⟨tokensAfter history ts, 0⟩ ∧ k.count s = Counted.lift k.parse s := by
  refine ⟨fun k ts ts' answer answered n mem => ?_, fun k s => ?_, fun history ts k => ?_⟩
  · refine ⟨n.exists_path, fun j m path => ?_⟩
    have bound := path.le_nesting
    have within := nesting_le answered mem
    omega
  · have kept := congrArg Counter.depth ((k.count_mirrors s.depth).leaves s.tokens)
    exact kept
  · intro s
    have same : s = ⟨tokensAfter history ts, 0⟩ := counterAfter_eq history ts
    refine ⟨same, ?_⟩
    rw [same]
    exact k.count_apply _

/-- The first statement fails inside two parentheses. Behind it the second one is answered as if
    it stood alone, with a tree that nests three times. -/
theorem nesting_bounded_counter_restored_after_error :
    let ts := Tokens.ofSource (.ofString "((1; {-(2);}")
    let s := counterAfter [statement, synchronize] ⟨ts, 0⟩
    (leaves statement.parse ts).pending.head?.map (·.text) = some ";" ∧
    s.depth = 0 ∧
    ∃ n rest, statement.count s = .ok (some n) ⟨rest, 0⟩ ∧ rest.pending = [] ∧
      n.text = "{-(2); }" ∧ n.nesting = 3 ∧ ∀ j m, n.Path j m → j ≤ maxNesting := by
  intro ts s
  obtain ⟨bounded, -, later⟩ := nesting_bounded_counter_restored
  obtain ⟨same, answers⟩ := later [statement, synchronize] ts statement
  have facts : (match Parse.statement (tokensAfter [statement, synchronize] ts) with
      | .ok r rest => decide (rest.pending = [] ∧
          r.map (fun n => (n.text, n.nesting)) = some ("{-(2); }", 3))
      | .error _ _ => false) = true := by
    decide +kernel
  refine ⟨by decide +kernel, congrArg Counter.depth same, ?_⟩
  cases parsed : Parse.statement (tokensAfter [statement, synchronize] ts) with
  | error _ _ => simp [parsed] at facts
  | ok r rest =>
      simp only [parsed, decide_eq_true_eq, Option.map_eq_some_iff, Prod.mk.injEq] at facts
      obtain ⟨ended, n, rfl, written, deep⟩ := facts
      refine ⟨n, rest, ?_, ended, written, deep, (bounded statement _ _ _ parsed n (.head _)).2⟩
      rw [answers, same]
      exact Counted.lift_of_ok parsed

end Call

end Scriptlet
