import Scriptlet.Proofs.Exhaustion
import Scriptlet.Proofs.Grammar.StatesCompleteness

/-! # What makes the parsers of the grammar run out of levels

Each parser runs out of levels where a parser of the level inside does that it calls: it is said
for each of them which these are, and behind what. Tokens by themselves never make a parser run
out of levels.
-/

namespace Scriptlet

namespace Grammar

open Parse

/-! ## Loops

What a loop collects behind a part runs out of levels where the same part would behind the tokens
that lead to the next round.
-/

section Loops

variable {d : Nat} {inner : Grammar} {s : Tokens}

theorem exhausts_link {ops : List BinaryOp} {p : Parse (Option Node)} :
    Exhausts (link ops p) s ↔
      ∃ op ∈ ops, ∃ t s₁, s = s₁.prepend [t] ∧ t.Spells op.symbol ∧ Exhausts p s₁ := by
  refine (exhausts_takeOneOf fun _ _ => BinaryOp.symbol_inj).trans ?_
  rw [or_iff_left fun ⟨_, deep⟩ => not_exhausts_pure _ _ deep]
  simp only [exhausts_bind_left fun _ => not_exhausts_pure _, exhausts_require]

theorem exhausts_leftChain {ops : List BinaryOp} {p : Parse (Option Node)} :
    Exhausts (leftChain ops p) s ↔
      Exhausts p s ∨ ∃ n s₁, p s = .ok (some n) s₁ ∧ Exhausts (many (link ops p)) s₁ := by
  refine (exhausts_bind_some ?_).trans ?_
  · exact not_exhausts_pure none
  · simp only [exhausts_bind_left fun _ => not_exhausts_pure _]

theorem exhausts_links {ops : List BinaryOp} {p : Parse (Option Node)}
    (progress : Progresses (link ops p)) :
    Exhausts (many (link ops p)) s ↔
      ∃ op ∈ ops, ∃ t s₁, s = s₁.prepend [t] ∧ t.Spells op.symbol ∧
        Exhausts (leftChain ops p) s₁ := by
  by_cases next : s.Next fun t => ∃ op ∈ ops, t.Spells op.symbol
  · obtain ⟨t, s₁, rfl, op, mem, spelled⟩ := Tokens.next_iff.mp next
    have round : link ops p (s₁.prepend [t]) =
        ((fun n => some (op, t.location, n)) <$> require ("'" ++ op.symbol ++ "'") p) s₁ := by
      refine (bind_of_ok (takeOneOf_of_next (fun _ _ => BinaryOp.symbol_inj) mem spelled s₁ [])).trans
        ?_
      rw [map_eq_pure_bind]
      rfl
    rw [exhausts_many_of_step progress round, exhausts_require]
    simp only [require_eq_ok, Tokens.exists_prepend_iff]
    rw [← exhausts_leftChain]
    constructor
    · exact fun deep => ⟨op, mem, spelled, deep⟩
    · rintro ⟨_, -, -, deep⟩
      exact deep
  · have ended : many (link ops p) s = .ok [] s :=
      many_of_none (bind_of_ok (takeOneOf_of_not_next next))
    refine iff_of_false (not_exhausts_of_ok ended) ?_
    rintro ⟨op, mem, t, s₁, rfl, spelled, -⟩
    exact next ⟨t, rfl, op, mem, spelled⟩

theorem exhausts_parseExpression :
    Exhausts (parseExpression inner) s ↔
      Exhausts (parseAssignment inner) s ∨ ∃ n s₁, parseAssignment inner s = .ok (some n) s₁ ∧
        Exhausts (many (furtherItem "','" inner)) s₁ := by
  refine (exhausts_bind_some ?_).trans ?_
  · exact not_exhausts_pure none
  refine or_congr_right (exists_congr fun n => exists_congr fun s₁ => and_congr_right fun _ => ?_)
  refine exhausts_bind_left fun others => ?_
  cases others <;> exact not_exhausts_pure _

theorem exhausts_furtherItems_prepend {comma : Token} (separated : comma.isOperator "," = true)
    (after : String) :
    Exhausts (many (furtherItem after (within d))) (s.prepend [comma]) ↔
      Exhausts (parseAssignment (within d)) s ∨ ∃ n s₁,
        parseAssignment (within d) s = .ok (some n) s₁ ∧
        Exhausts (many (furtherItem after (within d))) s₁ := by
  have round : furtherItem after (within d) (s.prepend [comma]) =
      (some <$> require after (parseAssignment (within d))) s :=
    bind_of_ok (takeIf_of_next separated s [])
  rw [exhausts_many_of_step (furtherItem_progresses (sound_within d) after) round,
    exhausts_require]
  simp only [require_eq_ok]

/-- Behind a comma, an item and those behind it run out of levels as an expression does, whatever
    the words of the message that misses an item. -/
theorem exhausts_furtherItems (after : String) (s : Tokens) :
    Exhausts (many (furtherItem after (within d))) s ↔
      ∃ comma s₁, s = s₁.prepend [comma] ∧ comma.isOperator "," = true ∧
        Exhausts (parseExpression (within d)) s₁ := by
  generalize length : s.pending.length = k
  induction k using Nat.strongRecOn generalizing s after with
  | _ k ih =>
    by_cases next : s.Next (·.isOperator "," = true)
    · obtain ⟨comma, s₁, rfl, separated⟩ := Tokens.next_iff.mp next
      have rounds : Exhausts (many (furtherItem after (within d))) (s₁.prepend [comma]) ↔
          Exhausts (parseExpression (within d)) s₁ := by
        rw [exhausts_furtherItems_prepend separated, exhausts_parseExpression]
        refine or_congr_right (exists_congr fun n => exists_congr fun s₂ =>
          and_congr_right fun ran => ?_)
        obtain ⟨ts, rfl, -⟩ := parseAssignment_takes (sound_within d) ran
        have shorter : s₂.pending.length < k := by
          simp only [Tokens.pending_prepend, List.length_append, List.length_singleton] at length
          omega
        exact (ih _ shorter after s₂ rfl).trans (ih _ shorter "','" s₂ rfl).symm
      rw [rounds, Tokens.exists_prepend_iff, and_iff_right separated]
    · have ended : many (furtherItem after (within d)) s = .ok [] s :=
        many_of_none (bind_of_ok (takeIf_of_not_next next))
      refine iff_of_false (not_exhausts_of_ok ended) ?_
      rintro ⟨comma, s₁, rfl, separated, -⟩
      exact next ⟨comma, rfl, separated⟩

/-- The declared names behind the word `var`. -/
def parseDeclarators (inner : Grammar) : Parse (List (Declarator Node)) := do
  let first ← parseDeclarator inner
  return first :: (← many (furtherDeclarator inner))

theorem exhausts_parseDeclarators :
    Exhausts (parseDeclarators inner) s ↔ Exhausts (parseDeclarator inner) s ∨ ∃ x s₁,
      parseDeclarator inner s = .ok x s₁ ∧ Exhausts (many (furtherDeclarator inner)) s₁ := by
  refine exhausts_bind.trans ?_
  simp only [exhausts_bind_left fun _ => not_exhausts_pure _]

theorem not_exhausts_parseDeclarators_of_nil (nothing : s.pending = []) :
    ¬Exhausts (parseDeclarators inner) s := by
  obtain ⟨_, stop⟩ := s
  cases nothing
  exact fun deep => not_exhausts_failAt (by nofun) none ⟨[], stop⟩ deep

theorem furtherDeclarator_splits (inner : Grammar) (s : Tokens) :
    (∃ comma s₁, s = s₁.prepend [comma] ∧ comma.isOperator "," = true ∧
        furtherDeclarator inner s = (some <$> parseDeclarator inner) s₁) ∨
      (furtherDeclarator inner s = .ok none s ∧ ∀ (comma : Token) (s₁ : Tokens),
        s = s₁.prepend [comma] → comma.isOperator "," = true → s₁.pending = []) := by
  obtain ⟨_ | ⟨t, _ | ⟨u, ts⟩⟩, stop⟩ := s
  · exact .inr ⟨rfl, nofun⟩
  · refine .inr ⟨rfl, fun comma s₁ same _ => ?_⟩
    obtain ⟨-, rfl⟩ := Tokens.prepend_singleton_inj (s := ⟨[], stop⟩) same
    rfl
  · have ran : furtherDeclarator inner ⟨t :: u :: ts, stop⟩ = _ :=
      furtherDeclarator_apply ⟨ts, stop⟩ t u
    by_cases separated : t.isOperator "," = true
    · exact .inl ⟨t, ⟨u :: ts, stop⟩, rfl, separated, ran.trans (if_pos separated)⟩
    · refine .inr ⟨ran.trans (if_neg separated), fun comma s₁ same isComma => ?_⟩
      obtain ⟨rfl, -⟩ := Tokens.prepend_singleton_inj (s := ⟨u :: ts, stop⟩) same
      exact absurd isComma separated

theorem exhausts_furtherDeclarators :
    Exhausts (many (furtherDeclarator (within d))) s ↔
      ∃ comma s₁, s = s₁.prepend [comma] ∧ comma.isOperator "," = true ∧
        Exhausts (parseDeclarators (within d)) s₁ := by
  obtain ⟨comma, s₁, rfl, separated, round⟩ | ⟨ended, last⟩ :=
    furtherDeclarator_splits (within d) s
  · rw [exhausts_many_of_step (furtherDeclarator_progresses (sound_within d)) round,
      ← exhausts_parseDeclarators, Tokens.exists_prepend_iff, and_iff_right separated]
  · refine iff_of_false (not_exhausts_of_ok (many_of_none ended)) ?_
    rintro ⟨comma, s₁, same, separated, deep⟩
    exact not_exhausts_parseDeclarators_of_nil (last comma s₁ same separated) deep

/-- The arms behind an arm. -/
def furtherArms (inner : Grammar) : Parse (List (Branch Node)) := do
  let others ← many (furtherArm inner)
  return others ++ (← lastArm inner)

/-- The arms behind the words that introduce one of them. -/
def parseArms (word : BranchWord) (inner : Grammar) : Parse (List (Branch Node)) := do
  let first ← parseArm inner word
  return first :: (← furtherArms inner)

theorem exhausts_parseArms {word : BranchWord} :
    Exhausts (parseArms word inner) s ↔ Exhausts (parseArm inner word) s ∨ ∃ b s₁,
      parseArm inner word s = .ok b s₁ ∧ Exhausts (furtherArms inner) s₁ := by
  refine exhausts_bind.trans ?_
  simp only [exhausts_bind_left fun _ => not_exhausts_pure _]

theorem exhausts_parseBody {word : BranchWord} :
    Exhausts (parseBody inner word) s ↔ Exhausts inner.statement s := by
  refine exhausts_bind_left fun r => ?_
  cases r with
  | none => exact not_exhausts_refuseNext (by nofun)
  | some n => exact not_exhausts_pure n

theorem exhausts_lastArm :
    Exhausts (lastArm inner) s ↔
      ∃ t s₁, s = s₁.prepend [t] ∧ t.isSymbol "else" = true ∧ Exhausts inner.statement s₁ := by
  refine exhausts_takeIf.trans ?_
  rw [or_iff_left fun ⟨_, deep⟩ => not_exhausts_pure _ _ deep]
  simp only [exhausts_bind_left fun _ => not_exhausts_pure _, exhausts_parseBody]

theorem exhausts_furtherArms_of_round {word : BranchWord} {s₁ : Tokens}
    (round : furtherArm (within d) s = (some <$> parseArm (within d) word) s₁) :
    Exhausts (furtherArms (within d)) s ↔ Exhausts (parseArms word (within d)) s₁ := by
  have progress := furtherArm_progresses (soundStatements_within d)
  have tail (s : Tokens) : Exhausts (furtherArms (within d)) s ↔
      Exhausts (many (furtherArm (within d))) s ∨ ∃ others s₁,
        many (furtherArm (within d)) s = .ok others s₁ ∧ Exhausts (lastArm (within d)) s₁ := by
    refine exhausts_bind.trans ?_
    simp only [exhausts_bind_left fun _ => not_exhausts_pure _]
  rw [exhausts_parseArms, tail, exhausts_many_of_step progress round]
  constructor
  · rintro ((deep | ⟨b, s₂, ran, deep⟩) | ⟨others, s₃, ran, deep⟩)
    · exact .inl deep
    · exact .inr ⟨b, s₂, ran, (tail s₂).mpr (.inl deep)⟩
    · obtain ⟨-, ended⟩ | ⟨a, s₂, more, -, ran, rest⟩ := many_cases progress ran
      · obtain ⟨_, -, absurd⟩ := map_eq_ok.mp (round.symm.trans ended)
        cases absurd
      · obtain ⟨b, found, -⟩ := map_eq_ok.mp (round.symm.trans ran)
        exact .inr ⟨b, s₂, found, (tail s₂).mpr (.inr ⟨more, s₃, rest, deep⟩)⟩
  · rintro (deep | ⟨b, s₂, found, deep⟩)
    · exact .inl (.inl deep)
    · obtain deep | ⟨more, s₃, rest, deep⟩ := (tail s₂).mp deep
      · exact .inl (.inr ⟨b, s₂, found, deep⟩)
      · have all := many_of_some progress (round.trans (map_of_ok found))
        exact .inr ⟨b :: more, s₃, all.trans (map_of_ok rest), deep⟩

theorem exhausts_furtherArms :
    Exhausts (furtherArms (within d)) s ↔
      (∃ further ∈ [BranchWord.elseif, .elsif, .elseIf], ∃ ws s₁, s = s₁.prepend ws ∧
        further.Introduces ws ∧ Exhausts (parseArms further (within d)) s₁) ∨
      ∃ t s₁, s = s₁.prepend [t] ∧ t.isSymbol "else" = true ∧
        ¬s₁.Next (·.isSymbol "if" = true) ∧ Exhausts (within d).statement s₁ := by
  have ended (none_found : furtherArm (within d) s = .ok none s) :
      Exhausts (furtherArms (within d)) s ↔ Exhausts (lastArm (within d)) s := by
    refine (exhausts_bind_of_ok (many_of_none none_found)).trans ?_
    exact exhausts_bind_left fun _ => not_exhausts_pure _
  constructor
  · intro deep
    obtain ⟨further, ws, s₁, mem, introduced, rfl, -, round⟩ | ⟨none_found, absent⟩ :=
      furtherArm_splits (within d) s
    · exact .inl ⟨further, mem, ws, s₁, rfl, introduced,
        (exhausts_furtherArms_of_round round).mp deep⟩
    · obtain ⟨t, s₁, rfl, isElse, deep⟩ := exhausts_lastArm.mp ((ended none_found).mp deep)
      have notIf := (absent t s₁ rfl (.inr (.inr isElse))).2
      exact .inr ⟨t, s₁, rfl, isElse, notIf, deep⟩
  · rintro (⟨further, mem, ws, s₁, rfl, introduced, deep⟩ | ⟨t, s₁, rfl, isElse, notIf, deep⟩)
    · exact (exhausts_furtherArms_of_round (furtherArm_of_words mem introduced s₁)).mpr deep
    · rw [ended (furtherArm_of_else isElse notIf)]
      exact exhausts_lastArm.mpr ⟨t, s₁, rfl, isElse, deep⟩

end Loops

/-! ## Expressions -/

section Expressions

variable {d : Nat} {inner : Grammar} {s : Tokens}

theorem exhausts_parseAssignment :
    Exhausts (parseAssignment inner) s ↔
      Exhausts (parseConditional inner) s ∨ ∃ n s₁, parseConditional inner s = .ok (some n) s₁ ∧
        ∃ op ∈ BinaryOp.assignments ++ [.lambda], ∃ t s₂, s₁ = s₂.prepend [t] ∧
          t.Spells op.symbol ∧ Exhausts inner.assignment s₂ := by
  refine (exhausts_bind_some ?_).trans ?_
  · exact not_exhausts_pure none
  simp only [← exhausts_link]
  refine or_congr_right (exists_congr fun n => exists_congr fun s₁ => and_congr_right fun _ => ?_)
  refine exhausts_bind_left fun r => ?_
  cases r <;> exact not_exhausts_pure _

theorem not_next_question_of_default {op : BinaryOp} {t : Token}
    (mem : op ∈ [BinaryOp.elvis, .coalesce]) (spelled : t.Spells op.symbol) (s : Tokens) :
    ¬(s.prepend [t]).Next (·.isOperator "?" = true) := by
  rw [Tokens.next_prepend_cons, Token.isOperator_iff, spelled.2]
  simp only [List.mem_cons, List.not_mem_nil, or_false] at mem
  obtain rfl | rfl := mem <;> exact fun same => absurd same.2 (by decide)

theorem exhausts_parseConditional :
    Exhausts (parseConditional inner) s ↔
      Exhausts (parseChain inner) s ∨ ∃ n s₁, parseChain inner s = .ok (some n) s₁ ∧
        ((∃ question s₂, s₁ = s₂.prepend [question] ∧ question.isOperator "?" = true ∧
            (Exhausts inner.conditional s₂ ∨ ∃ y s₃, inner.conditional s₂ = .ok (some y) s₃ ∧
              ∃ colon s₄, s₃ = s₄.prepend [colon] ∧ colon.isOperator ":" = true ∧
                Exhausts inner.conditional s₄)) ∨
          ∃ op ∈ [BinaryOp.elvis, .coalesce], ∃ t s₂, s₁ = s₂.prepend [t] ∧
            t.Spells op.symbol ∧ Exhausts inner.conditional s₂) := by
  refine (exhausts_bind_some ?_).trans ?_
  · exact not_exhausts_pure none
  refine or_congr_right (exists_congr fun n => exists_congr fun s₁ => and_congr_right fun _ => ?_)
  refine exhausts_takeIf.trans (or_congr ?_ ?_)
  · refine exists_congr fun question => exists_congr fun s₂ => and_congr_right fun _ =>
      and_congr_right fun _ => exhausts_bind.trans ?_
    simp only [exhausts_require, require_eq_ok]
    refine or_congr_right (exists_congr fun y => exists_congr fun s₃ => and_congr_right fun _ => ?_)
    refine exhausts_takeIf.trans ?_
    rw [or_iff_left]
    · simp only [exhausts_bind_left fun _ => not_exhausts_pure _, exhausts_require]
    · rintro ⟨-, deep⟩
      obtain absurd | ⟨_, _, refused, -⟩ := exhausts_bind.mp deep
      · exact not_exhausts_refuseNext (by nofun) _ absurd
      · exact refuseNext_ne_ok _ _ refused
  · refine (and_congr_right fun _ => exhausts_bind_left fun r => ?_).trans ?_
    · cases r <;> exact not_exhausts_pure _
    rw [exhausts_link]
    refine and_iff_right_of_imp ?_
    rintro ⟨op, mem, t, s₂, rfl, spelled, -⟩
    exact not_next_question_of_default mem spelled s₂

theorem exhausts_parseAtom :
    Exhausts (parseAtom inner) s ↔ ∃ opening s₁, s = s₁.prepend [opening] ∧
      opening.isSeparator '(' = true ∧ Exhausts (parseExpression inner) s₁ := by
  obtain nothing | ⟨t, s₁, rfl⟩ := s.eq_prepend
  · obtain ⟨_, stop⟩ := s
    cases nothing
    refine iff_of_false (not_exhausts_of_ok (a := none) rfl) ?_
    rintro ⟨_, _, absurd, -⟩
    cases absurd
  rw [Tokens.exists_prepend_iff]
  by_cases opens : t.isSeparator '(' = true
  · rw [and_iff_right opens]
    refine (exhausts_bind_of_ok (peek_apply _)).trans ?_
    simp only [Tokens.pending_prepend, List.cons_append, List.head?_cons, opens, if_true]
    refine (exhausts_bind_of_ok (skip_prepend s₁ t [])).trans ?_
    refine exhausts_bind.trans ((or_iff_left ?_).trans exhausts_require)
    rintro ⟨n, s₂, -, deep⟩
    obtain ⟨_, s₃, -, -, absurd⟩ := exhausts_expectSeparator.mp deep
    exact not_exhausts_pure _ _ absurd
  · refine iff_of_false (fun deep => ?_) (mt And.left opens)
    replace deep := (exhausts_bind_of_ok (peek_apply _)).mp deep
    simp only [Tokens.pending_prepend, List.cons_append, List.head?_cons, if_neg opens] at deep
    have skipped {n : Option Node} : ¬Exhausts (do skip; return n) (s₁.prepend [t]) := by
      rw [exhausts_bind_of_ok (skip_prepend s₁ t [])]
      exact not_exhausts_pure n _
    split at deep
    · exact skipped deep
    split at deep
    · exact skipped deep
    split at deep
    · exact skipped deep
    · exact not_exhausts_pure _ _ deep

theorem not_exhausts_memberName (op : AccessOp) (s : Tokens) :
    ¬Exhausts (memberName op) s := by
  obtain ⟨_ | ⟨t, ts⟩, stop⟩ := s
  · exact not_exhausts_failAt (by nofun) none ⟨[], stop⟩
  · have taken : next (⟨t :: ts, stop⟩ : Tokens) = .ok (some t) ⟨ts, stop⟩ := rfl
    rw [memberName, exhausts_bind_of_ok taken]
    simp only
    split
    · exact not_exhausts_pure _ _
    · exact not_exhausts_failAt (by nofun) _ _

theorem exhausts_parseMember :
    Exhausts (parseMember inner) s ↔ ∃ t s₁, s = s₁.prepend [t] ∧ t.Opens .index ∧
      Exhausts (parseExpression inner) s₁ := by
  have property {t : Token} {s : Tokens} :
      Exhausts (do
        let n ← require "'['" (parseExpression inner)
        let _ ← expectSeparator ']' .indexClosing
        return some (Suffix.member .index n t.location)) s ↔
      Exhausts (parseExpression inner) s := by
    refine (exhausts_bind_left fun n s deep => ?_).trans exhausts_require
    obtain ⟨_, _, -, -, absurd⟩ := exhausts_expectSeparator.mp deep
    exact not_exhausts_pure _ _ absurd
  by_cases next : s.Next OpensMember
  · obtain ⟨t, s₁, rfl, op, opens⟩ := Tokens.next_iff.mp next
    refine (exhausts_bind_of_ok (peekAccess_of_next opens s₁ [])).trans ?_
    refine exhausts_here_skip.trans ?_
    rw [Tokens.exists_prepend_iff]
    split
    · next index =>
        subst index
        exact property.trans (and_iff_right opens).symm
    · next named =>
        refine iff_of_false (fun deep => ?_) fun index => ?_
        · exact not_exhausts_memberName op s₁
            ((exhausts_bind_left fun _ => not_exhausts_pure _).mp deep)
        · exact named (Option.some.inj (opens.2.symm.trans index.1.2))
  · refine iff_of_false (not_exhausts_of_ok (parseMember_of_not_next next)) ?_
    rintro ⟨t, s₁, rfl, opens, -⟩
    exact next ⟨t, rfl, _, opens⟩

theorem exhausts_parseArguments :
    Exhausts (parseArguments (within d)) s ↔
      ¬s.Next (·.isSeparator ')' = true) ∧ Exhausts (parseExpression (within d)) s := by
  refine exhausts_takeIf.trans ((or_iff_right ?_).trans ?_)
  · rintro ⟨_, _, _, _, deep⟩
    exact not_exhausts_pure _ _ deep
  rw [exhausts_parseExpression]
  refine and_congr_right fun _ => exhausts_bind.trans ?_
  simp only [exhausts_require, require_eq_ok]
  refine or_congr_right (exists_congr fun n => exists_congr fun s₁ => and_congr_right fun _ => ?_)
  refine (exhausts_bind_left fun others => not_exhausts_takeIf fun r => ?_).trans ?_
  · cases r with
    | none => exact not_exhausts_refuseNext (by nofun)
    | some closing => exact not_exhausts_pure _
  exact (exhausts_furtherItems _ s₁).trans (exhausts_furtherItems "','" s₁).symm

theorem exhausts_parseSuffix :
    Exhausts (parseSuffix (within d)) s ↔
      (∃ opening s₁, s = s₁.prepend [opening] ∧ opening.isSeparator '(' = true ∧
        ¬s₁.Next (·.isSeparator ')' = true) ∧ Exhausts (parseExpression (within d)) s₁) ∨
      ∃ t s₁, s = s₁.prepend [t] ∧ t.Opens .index ∧
        Exhausts (parseExpression (within d)) s₁ := by
  refine exhausts_takeIf.trans (or_congr ?_ ?_)
  · simp only [exhausts_bind_left fun _ => not_exhausts_pure _, exhausts_parseArguments]
  · rw [← exhausts_parseMember]
    refine and_iff_right_of_imp fun deep => ?_
    obtain ⟨t, s₁, rfl, opens, -⟩ := exhausts_parseMember.mp deep
    rw [Tokens.next_prepend_cons]
    intro calls
    have text := (Token.isSeparator_iff.mp calls).2
    exact symbol_ne_opening _ (text.symm.trans (AccessOp.symbol_of_ofSymbol? opens.2))

theorem exhausts_parseAccess :
    Exhausts (parseAccess inner) s ↔
      (∃ word s₁, s = s₁.prepend [word] ∧ word.isSymbol "new" = true ∧
        Exhausts inner.access s₁) ∨
      (¬s.Next (·.isSymbol "new" = true) ∧ (Exhausts (parseAtom inner) s ∨
        ∃ n s₁, parseAtom inner s = .ok (some n) s₁ ∧ Exhausts (many (parseMember inner)) s₁)) := by
  refine exhausts_takeIf.trans (or_congr ?_ (and_congr_right fun _ => ?_))
  · simp only [exhausts_bind_left fun _ => not_exhausts_pure _, exhausts_require]
  · refine (exhausts_bind_some ?_).trans ?_
    · exact not_exhausts_pure none
    · simp only [exhausts_bind_left fun _ => not_exhausts_pure _]

theorem exhausts_parseCall :
    Exhausts (parseCall inner) s ↔ Exhausts (parseAccess inner) s ∨
      ∃ n s₁, parseAccess inner s = .ok (some n) s₁ ∧ Exhausts (many (parseSuffix inner)) s₁ := by
  refine (exhausts_bind_some ?_).trans ?_
  · exact not_exhausts_pure none
  · simp only [exhausts_bind_left fun _ => not_exhausts_pure _]

theorem not_exhausts_takeStep : ¬Exhausts takeStep s := by
  refine not_exhausts_takeIf (fun r => ?_) s
  cases r <;> exact not_exhausts_pure _

theorem exhausts_parseUpdate :
    Exhausts (parseUpdate inner) s ↔
      (∃ op ∈ PrefixOp.steps, ∃ t s₁, s = s₁.prepend [t] ∧ t.Spells op.symbol ∧
        Exhausts (parseCall inner) s₁) ∨
      (¬s.Next (fun t => ∃ op ∈ PrefixOp.steps, t.Spells op.symbol) ∧
        Exhausts (parseCall inner) s) := by
  refine (exhausts_takeOneOf fun _ _ => PrefixOp.symbol_inj).trans
    (or_congr ?_ (and_congr_right fun _ => ?_))
  · simp only [exhausts_bind_left fun _ => not_exhausts_pure _, exhausts_require]
  · refine exhausts_bind_left fun r s₁ => ?_
    cases r with
    | none => exact not_exhausts_pure none s₁
    | some n =>
        refine mt (exhausts_bind_left fun step => ?_).mp not_exhausts_takeStep
        cases step <;> exact not_exhausts_pure _

theorem exhausts_parseOperand :
    Exhausts (parseOperand inner) s ↔
      (∃ op ∈ PrefixOp.unary, ∃ t s₁, s = s₁.prepend [t] ∧ t.Spells op.symbol ∧
        Exhausts inner.operand s₁) ∨
      (¬s.Next (fun t => ∃ op ∈ PrefixOp.unary, t.Spells op.symbol) ∧
        Exhausts (parseUpdate inner) s) := by
  refine (exhausts_takeOneOf fun _ _ => PrefixOp.symbol_inj).trans (or_congr_left ?_)
  simp only [exhausts_bind_left fun _ => not_exhausts_pure _, exhausts_require]

end Expressions

/-! ## Statements -/

section Statements

variable {d : Nat} {inner : Grammar} {s : Tokens} {t : Token}

theorem exhausts_parseBlock :
    Exhausts (parseBlock inner) s ↔ ∃ opening s₁, s = s₁.prepend [opening] ∧
      opening.isSeparator '\x7b' = true ∧ Exhausts (many inner.statement) s₁ := by
  refine exhausts_expectSeparator.trans ?_
  refine exists_congr fun opening => exists_congr fun s₁ => and_congr_right fun _ =>
    and_congr_right fun _ => exhausts_bind_left fun body => not_exhausts_takeIf fun r s => ?_
  split
  · refine mt (exhausts_bind_left fun _ => not_exhausts_pure _).mp ?_
    exact not_exhausts_failAt (by nofun) none s
  · exact not_exhausts_pure _ s

theorem exhausts_parseDeclarator :
    Exhausts (parseDeclarator inner) s ↔ ∃ t sign s₁, s = s₁.prepend [t, sign] ∧
      isName t = true ∧ sign.isOperator "=" = true ∧ Exhausts (parseAssignment inner) s₁ := by
  constructor
  · intro deep
    obtain ⟨t, s₁, rfl, isName, deep⟩ | ⟨-, deep⟩ := exhausts_takeIf.mp deep
    · obtain ⟨sign, s₂, rfl, assigned, deep⟩ | ⟨-, deep⟩ := exhausts_takeIf.mp deep
      · rw [exhausts_bind_left fun _ => not_exhausts_pure _, exhausts_require] at deep
        exact ⟨t, sign, s₂, rfl, isName, assigned, deep⟩
      · exact absurd deep (not_exhausts_pure _ _)
    · replace deep := (exhausts_bind_of_ok (peek_apply s)).mp deep
      exact absurd deep (not_exhausts_failAt (by nofun) _ _)
  · rintro ⟨t, sign, s₁, rfl, isName, assigned, deep⟩
    refine exhausts_takeIf.mpr (.inl ⟨t, s₁.prepend [sign], rfl, isName, ?_⟩)
    refine exhausts_takeIf.mpr (.inl ⟨sign, s₁, rfl, assigned, ?_⟩)
    exact (exhausts_require.mpr deep).bind

theorem exhausts_parseVar :
    Exhausts (parseVar inner) (s.prepend [t]) ↔ Exhausts (parseDeclarators inner) s := by
  refine exhausts_here_skip.trans ?_
  rw [exhausts_parseDeclarators]
  refine exhausts_bind.trans (or_congr_right ?_)
  exact exists_congr fun x => exists_congr fun s₁ => and_congr_right fun _ =>
    exhausts_bind_left fun others => not_exhausts_takeIf fun _ => not_exhausts_pure _

theorem exhausts_parseArm {word : BranchWord} :
    Exhausts (parseArm inner word) s ↔ ∃ opening s₁, s = s₁.prepend [opening] ∧
      opening.isSeparator '(' = true ∧ (Exhausts (parseExpression inner) s₁ ∨
        ∃ c s₂, parseExpression inner s₁ = .ok (some c) s₂ ∧ ∃ closing s₃,
          s₂ = s₃.prepend [closing] ∧ closing.isSeparator ')' = true ∧
          Exhausts inner.statement s₃) := by
  refine exhausts_expectSeparator.trans ?_
  refine exists_congr fun opening => exists_congr fun s₁ => and_congr_right fun _ =>
    and_congr_right fun _ => exhausts_bind.trans ?_
  simp only [exhausts_require, require_eq_ok]
  refine or_congr_right (exists_congr fun c => exists_congr fun s₂ => and_congr_right fun _ => ?_)
  refine exhausts_expectSeparator.trans ?_
  simp only [exhausts_bind_left fun _ => not_exhausts_pure _, exhausts_parseBody]

theorem exhausts_parseIf :
    Exhausts (parseIf inner) (s.prepend [t]) ↔ Exhausts (parseArms .if_ inner) s := by
  refine exhausts_here_skip.trans ?_
  rw [exhausts_parseArms]
  refine exhausts_bind.trans (or_congr_right ?_)
  refine exists_congr fun b => exists_congr fun s₁ => and_congr_right fun _ => ?_
  refine exhausts_bind.trans (Iff.trans ?_ exhausts_bind.symm)
  simp only [exhausts_bind_left fun _ => not_exhausts_pure _]

theorem exhausts_parseExpressionStatement :
    Exhausts (parseExpressionStatement inner) s ↔ Exhausts (parseExpression inner) s := by
  refine (exhausts_bind_of_ok (here_apply s)).trans (exhausts_bind_left fun r s₁ deep => ?_)
  cases r with
  | none => exact not_exhausts_refuseNext (by nofun) s₁ deep
  | some n =>
      have ended (place : Location) : ∀ s, ¬Exhausts (do
          let _ ← takeSeparator ';'
          return Node.expression n place) s :=
        not_exhausts_takeIf fun _ => not_exhausts_pure _
      replace deep := (exhausts_bind_of_ok (peek_apply s₁)).mp deep
      split at deep
      · replace deep := (exhausts_bind_left fun _ => ended _).mp deep
        exact not_exhausts_refuseNext (by nofun) s₁ deep
      · exact ended _ s₁ deep

theorem exhausts_parseStatement :
    Exhausts (parseStatement inner) (s.prepend [t]) ↔
      (t.isSeparator '\x7b' = true ∧ Exhausts (many inner.statement) s) ∨
      (t.isSymbol "var" = true ∧ Exhausts (parseDeclarators inner) s) ∨
      (t.isSymbol "if" = true ∧ Exhausts (parseArms .if_ inner) s) ∨
      ((t.isSeparator '\x7d' = false ∧ t.isSeparator ';' = false ∧ t.isSeparator '\x7b' = false ∧
          t.isSymbol "var" = false ∧ t.isSymbol "if" = false) ∧
        Exhausts (parseExpression inner) (s.prepend [t])) := by
  constructor
  · intro deep
    replace deep := (exhausts_bind_of_ok (peek_apply _)).mp deep
    simp only [Tokens.pending_prepend, List.cons_append, List.head?_cons] at deep
    split at deep
    · exact absurd deep (not_exhausts_pure _ _)
    next notClosing =>
    split at deep
    · exact absurd ((exhausts_bind_of_ok (skip_prepend s t [])).mp deep) (not_exhausts_pure _ _)
    next notEmpty =>
    split at deep
    · have block := exhausts_parseBlock.mp (exhausts_map.mp deep)
      exact .inl (Tokens.exists_prepend_iff.mp block)
    next notBlock =>
    split at deep
    · next isVar => exact .inr (.inl ⟨isVar, exhausts_parseVar.mp (exhausts_map.mp deep)⟩)
    next notVar =>
    split at deep
    · next isIf => exact .inr (.inr (.inl ⟨isIf, exhausts_parseIf.mp (exhausts_map.mp deep)⟩))
    next notIf =>
    have value := exhausts_parseExpressionStatement.mp (exhausts_map.mp deep)
    simp only [Bool.not_eq_true] at notClosing notEmpty notBlock notVar notIf
    exact .inr (.inr (.inr ⟨⟨notClosing, notEmpty, notBlock, notVar, notIf⟩, value⟩))
  · rintro (⟨opens, deep⟩ | ⟨isVar, deep⟩ | ⟨isIf, deep⟩ |
      ⟨⟨notClosing, notEmpty, notBlock, notVar, notIf⟩, deep⟩)
    · rw [exhausts_congr (parseStatement_of_block opens s), exhausts_map]
      exact exhausts_parseBlock.mpr ⟨t, s, rfl, opens, deep⟩
    · rw [exhausts_congr (parseStatement_of_var isVar s), exhausts_map]
      exact exhausts_parseVar.mpr deep
    · rw [exhausts_congr (parseStatement_of_if isIf s), exhausts_map]
      exact exhausts_parseIf.mpr deep
    · refine (exhausts_bind_of_ok (peek_apply _)).mpr ?_
      simp only [Tokens.pending_prepend, List.cons_append, List.head?_cons, notClosing, notEmpty,
        notBlock, notVar, notIf, Bool.false_eq_true, if_false, exhausts_map]
      exact exhausts_parseExpressionStatement.mpr deep

end Statements

end Grammar

end Scriptlet
