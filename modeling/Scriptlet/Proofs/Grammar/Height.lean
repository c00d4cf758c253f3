import Scriptlet.Proofs.Grammar.Depth
import Scriptlet.Proofs.Node.Height
import Scriptlet.Proofs.RoundTrip.Reading
import Scriptlet.Proofs.RoundTrip.Tokens

/-! # How high accepted trees are

The limit of nesting bounds how often the parsers descend into one another, but the operators
that group to the left, calls and members are collected in loops, each round of which puts
another node on top of what was there. So the height of accepted trees is not bounded. It is
bounded as far as the edges to what a loop grew are left out: between two levels of nesting there
are only so many phrases.
-/

namespace Scriptlet.Grammar

open Node

variable {d : Nat} {ts : List Token} {n : Node}

/-! ## What the levels of nesting bound -/

/-- How high a phrase can rise above the level it is nested in. -/
def Phrase.rise : Phrase → Nat
  | .expression | .list => 15
  | .assignment => 14
  | .conditional => 13
  | .chain levels => levels.length + 2
  | .operand | .update => 17
  | .call | .access | .object | .atom => 16

theorem Phrase.TakesMembers.rise {X : Phrase} (takes : X.TakesMembers) : X.rise = 16 := by
  obtain rfl | rfl := takes <;> rfl

theorem heightBy_enclose_le (loop : Nat) (place : Location) (n : Node) :
    (enclose place n).heightBy loop ≤ n.heightBy loop + 1 := by
  cases n with
  | paren => exact Nat.le_succ _
  | _ => exact Nat.le_refl _

/-- Each level of nesting adds no more than fifteen edges to the paths in a tree, those to what a
    loop grew left out. -/
theorem Derives.heightBy_le {ambiguous : Bool} {X : Phrase} (h : Derives ambiguous d X ts n)
    (sorted : X.Sorted) : n.heightBy 0 + 15 ≤ 15 * d + X.rise := by
  induction h with
  | single _ ih | unassigned _ ih | unprefixed _ ih | unstepped _ ih | uncalled _ ih
  | reached _ ih | bare _ ih =>
      have inside := ih trivial
      simp only [Phrase.rise] at inside ⊢
      omega
  | several _ _ ih => exact ih trivial
  | first _ ih =>
      have own := ih trivial
      simp only [heightBy, heightByAll, Phrase.rise] at own ⊢
      omega
  | further _ _ _ ihs ih =>
      have before := ihs trivial
      have own := ih trivial
      simp only [heightBy, heightByAll_append, heightByAll, Phrase.rise] at before own ⊢
      omega
  | unconditional _ ih =>
      have inside := ih ordered_binaryLevels
      simp only [Phrase.rise, binaryLevels, List.length_cons, List.length_nil] at inside ⊢
      omega
  | assigned _ mem _ _ iht ihv =>
      have left := iht trivial
      have right := ihv trivial
      simp only [heightBy, (precedence_assignments _ mem).2, if_true, Phrase.rise] at left right ⊢
      omega
  | ternary _ _ _ _ _ ihc ihy ihn =>
      have condition := ihc ordered_binaryLevels
      have yes := ihy trivial
      have no := ihn trivial
      simp only [heightBy, Phrase.rise, binaryLevels, List.length_cons, List.length_nil]
        at condition yes no ⊢
      omega
  | default _ mem _ _ ihv iho =>
      have left := ihv ordered_binaryLevels
      have right := iho trivial
      simp only [heightBy, (precedence_defaults _ mem).2, if_true, Phrase.rise, binaryLevels,
        List.length_cons, List.length_nil] at left right ⊢
      omega
  | unjoined _ ih =>
      have operand := ih trivial
      simp only [Phrase.rise, List.length_nil] at operand ⊢
      omega
  | tighter _ ih =>
      have inside := ih sorted.2.2
      simp only [Phrase.rise, List.length_cons] at inside ⊢
      omega
  | joined _ mem _ _ ihl ihr =>
      have left := ihl sorted
      have right := ihr sorted.2.2
      simp only [heightBy, (sorted.2.1 _ mem).2, Bool.false_eq_true, if_false, Phrase.rise,
        List.length_cons] at left right ⊢
      omega
  | prefixed _ _ _ ih | steppedBefore _ _ _ ih | steppedBehind _ _ ih | new _ _ ih =>
      have operand := ih trivial
      simp only [heightBy, Phrase.rise] at operand ⊢
      omega
  | calledEmpty _ _ _ ih => simpa [heightBy, heightByAll] using ih trivial
  | called _ _ _ _ ihc iha =>
      have callee := ihc trivial
      have all := iha trivial
      simp only [heightBy, Phrase.rise] at callee all ⊢
      omega
  | member takes _ _ _ _ _ ih =>
      have object := ih takes.sorted
      rw [takes.rise] at object ⊢
      simp only [heightBy] at object ⊢
      omega
  | index takes _ _ _ _ _ iho ihp =>
      have object := iho takes.sorted
      have property := ihp trivial
      rw [takes.rise] at object ⊢
      simp only [heightBy, Phrase.rise] at object property ⊢
      omega
  | @paren _ opening _ n _ _ _ _ ih =>
      have inside := ih trivial
      have enclosed := heightBy_enclose_le 0 opening.location n
      simp only [Phrase.rise] at inside ⊢
      omega
  | number | string | name =>
      simp only [heightBy, Phrase.rise]
      omega

theorem Conditions.heightBy_le (h : Conditions d ts n) : n.heightBy 0 ≤ 15 * d := by
  cases h with
  | paren _ inside _ => exact Nat.le_of_add_le_add_right (inside.heightBy_le trivial)

theorem Declares.heightBy_le {x : Declarator Node} (h : Declares d ts x) :
    heightByDeclarators 0 [x] ≤ 15 * d := by
  cases h with
  | bare => exact Nat.zero_le _
  | valued _ _ value =>
      have own := value.heightBy_le trivial
      simp only [heightByDeclarators, Phrase.rise] at own ⊢
      omega

theorem States.heightBy_le {strict : Bool} {X : Form} (h : States strict d X ts n) :
    n.heightBy 0 ≤ 15 * d + 1 := by
  induction h with
  | empty | none => exact Nat.zero_le _
  | block _ _ _ ih | var _ _ _ ih | armed _ ih => exact ih
  | next _ _ ihs ih =>
      simp only [heightBy, heightByAll_append, heightByAll] at ihs ⊢
      omega
  | declared item => exact Nat.le_succ_of_le item.heightBy_le
  | alsoDeclared _ _ item ih =>
      have own := item.heightBy_le
      simp only [heightBy, heightByDeclarators_append] at ih ⊢
      omega
  | ifArm _ condition _ ih =>
      have condition := condition.heightBy_le
      simp only [heightBy, heightByBranches]
      omega
  | elseArm _ _ _ _ condition _ ihs ih =>
      have condition := condition.heightBy_le
      simp only [heightBy, heightByBranches_append, heightByBranches] at ihs ⊢
      omega
  | otherwise _ _ _ _ _ ihs ih =>
      simp only [heightBy, heightByBranches_append, heightByBranches] at ihs ⊢
      omega
  | expression value _ =>
      have inside := value.heightBy_le trivial
      simp only [heightBy, Phrase.rise] at inside ⊢
      omega

/-! ## What the levels of nesting leave free -/

/-- The text of a call of what a call of `f` gives, and so on, with as many calls. -/
def callsText (calls : Nat) : List Char :=
  'f' :: (List.replicate calls ['(', ')']).flatten ++ [';']

def callsLexemes (calls : Nat) : List Lexeme :=
  (List.replicate calls [.separator '(', .separator ')']).flatten

theorem reads_callsText (calls : Nat) :
    Scriptlet.Reads (callsText calls) (.symbol "f" :: callsLexemes calls ++ [.separator ';']) [] := by
  have behind : Scriptlet.Reads ((List.replicate calls ['(', ')']).flatten ++ [';'])
      (callsLexemes calls ++ [.separator ';']) [] := by
    have stands {c : Char} {cs : List Char} (h : CharClass.isSeparator c = true) :
        (Lexeme.separator c).Stands cs := Lexeme.stands_separator h
    induction calls with
    | zero => exact .lexeme (l := .separator ';') (stands (by decide)) .done
    | succ calls ih =>
        exact .lexeme (l := .separator '(') (stands (by decide))
          (.lexeme (l := .separator ')') (stands (by decide)) ih)
  refine .lexeme (l := .symbol "f") (Lexeme.stands_symbol ⟨['f'], by decide +kernel⟩ rfl ?_) behind
  cases calls <;> exact noHead_cons.mpr (by decide)

/-- Each call is one edge more, however few levels of nesting there are. -/
theorem Derives.calls {calls : Nat} (callee : Derives false d .call ts n) {us : List Token}
    (spelled : us.map (·.toLexeme) = callsLexemes calls) :
    ∃ m, Derives false d .call (ts ++ us) m ∧ n.height + calls ≤ m.height := by
  induction calls generalizing ts n us with
  | zero =>
      cases List.map_eq_nil_iff.mp spelled
      exact ⟨n, by simpa using callee, Nat.le_refl _⟩
  | succ calls ih =>
      obtain ⟨opening, us, rfl, opens, rest⟩ := List.map_eq_cons_iff.mp spelled
      obtain ⟨closing, us, rfl, closes, behind⟩ := List.map_eq_cons_iff.mp rest
      obtain ⟨m, derived, higher⟩ := ih
        (callee.calledEmpty (beq_iff_eq.mpr opens) (beq_iff_eq.mpr closes)) behind
      refine ⟨m, by simpa using derived, ?_⟩
      have own : (Node.call n [] opening.location).height = n.height + 1 := by
        simp [height, heightBy, heightByAll]
      omega

theorem program_of_calls {calls : Nat}
    (spelled : ts.map (·.toLexeme) = .symbol "f" :: callsLexemes calls ++ [.separator ';'])
    (lexical : ∀ t ∈ ts, t.Lexical) (stop : Location) :
    ∃ m place, Parse.program ⟨ts, stop⟩ = .ok [.expression m place] ⟨[], stop⟩ ∧
      calls ≤ m.height := by
  obtain ⟨f, rest, rfl, isF, behind⟩ := List.map_eq_cons_iff.mp spelled
  obtain ⟨us, last, rfl, all, ending⟩ := List.map_eq_append_iff.mp behind
  obtain ⟨semicolon, _, rfl, ends, nothing⟩ := List.map_eq_cons_iff.mp ending
  cases List.map_eq_nil_iff.mp nothing
  have isName : Parse.isName f = true := by
    rw [Parse.isName, isF]
    decide
  have callee : Derives false 0 .call [f] _ := .uncalled (.reached (.bare (.name isName)))
  obtain ⟨m, derived, high⟩ := callee.calls all
  have value := derived.expression_of_call.mono (show 0 + 1 ≤ maxNesting by decide)
  have stated : States true (maxNesting + 1) .body _ (.block _ .start) :=
    .next .none (.expression value (.inl ⟨semicolon, rfl, beq_iff_eq.mpr ends⟩))
  refine ⟨m, _, program_of_states stated lexical stop, ?_⟩
  exact Nat.le_of_add_left_le high

end Scriptlet.Grammar

namespace Scriptlet.Parse

open Grammar

/-- Every path from the root of an accepted tree to a leaf is at most this long, as far as the
    edges from an operator that groups to the left to its left operand, from a call to its callee
    and from a member to its object are left out. -/
theorem heightBy_le_of_program {source : Source} {p : Program} {rest : Tokens}
    (accepted : Parse.program (.ofSource source) = .ok p rest) :
    ∀ n ∈ p, n.heightBy 0 ≤ 15 * (maxNesting + 1) := by
  intro n mem
  have all := (program_takes accepted).2.heightBy_le
  have own : n.heightBy 0 < Node.heightByAll 0 p := Node.heightBy_lt_heightByAll mem
  simp only [Node.heightBy] at all
  omega

/-- A tree with edges of either kind. -/
theorem heightBy_le_of_program_mixed :
    ∃ p rest, Parse.program (.ofSource (.ofString "a = -(1 + 2 + 3)[b.c.d()()]")) = .ok p rest ∧
      p.map Node.height = [8] ∧ p.map (Node.heightBy 0) = [5] ∧
      ∀ n ∈ p, n.heightBy 0 ≤ 15 * (maxNesting + 1) := by
  obtain ⟨p, rest, accepted, heights⟩ := Parse.exists_of_accepts (s := .ofSource
    (.ofString "a = -(1 + 2 + 3)[b.c.d()()]"))
    (fun p => p.map Node.height = [8] ∧ p.map (Node.heightBy 0) = [5]) (by decide +kernel)
  obtain ⟨whole, part⟩ := of_decide_eq_true heights
  exact ⟨p, rest, accepted, whole, part, heightBy_le_of_program accepted⟩

/-- No length bounds all paths: calls, one behind the other, make one as long as they are many. -/
theorem height_unbounded_of_calls :
    ¬∃ bound, ∀ text p rest, Parse.program (.ofSource (.ofString text)) = .ok p rest →
      ∀ n ∈ p, n.height ≤ bound := by
  rintro ⟨bound, bounded⟩
  have reads := reads_callsText bound
  rw [← String.toList_ofList (l := callsText bound)] at reads
  have spelled := Source.tokens_ofString reads
  obtain ⟨m, place, accepted, high⟩ := program_of_calls spelled Source.lexical_tokens _
  have low := bounded _ _ _ accepted _ (List.mem_singleton_self _)
  have top : (Node.expression m place).height = m.height + 1 := rfl
  omega

end Scriptlet.Parse
