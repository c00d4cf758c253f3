import Scriptlet.Proofs.Grammar.Follow
import Scriptlet.Proofs.Grammar.Precedence
import Scriptlet.Proofs.Grammar.Soundness

/-! # The parsers of expressions find all that the grammar derives

On a row that begins with a derived phrase, the parser of the phrase finds its tree and
leaves what follows, provided that what follows does not go on with the phrase. A loop
makes its tree grow: in front of a phrase that the grammar builds by left recursion, the
parser does what its loop does behind the phrase, when it starts with the phrase's tree.
-/

namespace Scriptlet.Grammar

open Parse

variable {d p : Nat} {inner : Grammar} {s : Tokens} {t : Token} {ts : List Token} {n : Node}

/-! ## Loops -/

section Growing

variable {α : Type} {grow : Node → α → Node} {step : Parse (Option α)}

/-- Let a tree grow by all that `step` finds. -/
def growing (grow : Node → α → Node) (step : Parse (Option α)) (n : Node) :
    Parse (Option Node) := do
  return some ((← many step).foldl grow n)

theorem growing_of_none (h : step s = .ok none s) : growing grow step n s = .ok (some n) s :=
  bind_of_ok (many_of_none h)

theorem growing_of_some (progress : Progresses step) {a : α} {s₁ : Tokens}
    (h : step s = .ok (some a) s₁) : growing grow step n s = growing grow step (grow n a) s₁ := by
  simp only [growing, bind, EStateM.bind, many_of_some progress h, Functor.map, EStateM.map]
  cases many step s₁ <;> rfl

end Growing

theorem link_of_stops {ops : List BinaryOp} {operand : Parse (Option Node)} (stops : Stops p s)
    (tight : ∀ op ∈ ops, op.precedence ≤ p) : link ops operand s = .ok none s := by
  have absent : ¬s.Next fun t => ∃ op ∈ ops, t.Spells op.symbol := by
    rintro ⟨t, head, op, mem, spelled⟩
    exact stops ⟨t, head, op.precedence, tight op mem, .binary op spelled⟩
  exact bind_of_ok (takeOneOf_of_not_next absent)

theorem link_of_spells {ops : List BinaryOp} {operand : Parse (Option Node)} {op : BinaryOp}
    {m : Node} (mem : op ∈ ops) (spelled : t.Spells op.symbol)
    (ran : operand (s.prepend ts) = .ok (some m) s) :
    link ops operand (s.prepend (t :: ts)) = .ok (some (op, t.location, m)) s := by
  refine (bind_of_ok (takeOneOf_of_next (fun _ _ => BinaryOp.symbol_inj) mem spelled s ts)).trans ?_
  exact bind_of_ok (require_eq_ok.mpr ran)

theorem link_progresses {ops : List BinaryOp} {operand : Parse (Option Node)}
    {D : List Token → Node → Prop} (sound : Takes operand fun ts n _ => D ts n) :
    Progresses (link ops operand) :=
  (link_takes sound).progresses fun ⟨_, _, same, _⟩ => by simp [same]

theorem takeOperator_of_stops {sign : String} {q : Nat} (stops : Stops p s) (le : q ≤ p)
    (attaches : ∀ t : Token, t.isOperator sign = true → Attaches t q) :
    takeOperator sign s = .ok none s :=
  takeIf_of_not_next (stops.not_next le attaches)

theorem furtherItem_of_stops {after : String} (stops : Stops Precedence.comma s) :
    furtherItem after inner s = .ok none s :=
  bind_of_ok (takeOperator_of_stops stops (Nat.le_refl _) fun _ => .comma)

theorem furtherItem_of_comma {after : String} (separated : t.isOperator "," = true)
    (ran : parseAssignment inner (s.prepend ts) = .ok (some n) s) :
    furtherItem after inner (s.prepend (t :: ts)) = .ok (some n) s := by
  refine (bind_of_ok (takeIf_of_next separated s ts)).trans ?_
  exact map_of_ok (require_eq_ok.mpr ran)

theorem furtherItem_progresses (sound : Sound d inner) (after : String) :
    Progresses (furtherItem after inner) :=
  (furtherItem_takes sound after).progresses fun ⟨_, _, same, _⟩ => by simp [same]

/-! ## Members and arguments -/

theorem parseMember_of_not_next (absent : ¬s.Next OpensMember) :
    parseMember inner s = .ok none s :=
  bind_of_ok (peekAccess_of_not_next absent)

theorem parseMember_of_name {op : AccessOp} {name : Token} (opens : t.Opens op)
    (named : op ≠ .index) (isName : isName name = true) :
    parseMember inner (s.prepend [t, name]) =
      .ok (some (.member op (.symbol name.text name.location) t.location)) s := by
  refine (bind_of_ok (peekAccess_of_next opens s [name])).trans ?_
  refine (here_skip_prepend s t [name] _).trans ?_
  rw [if_neg named]
  exact bind_of_ok (memberName_eq_ok.mpr ⟨name, isName, rfl, rfl⟩)

theorem parseMember_of_index {closing : Token} (opens : t.Opens .index)
    (ran : parseExpression inner (s.prepend (ts ++ [closing])) = .ok (some n) (s.prepend [closing]))
    (closes : closing.isSeparator ']' = true) :
    parseMember inner (s.prepend (t :: ts ++ [closing])) =
      .ok (some (.member .index n t.location)) s := by
  refine (bind_of_ok (peekAccess_of_next opens s _)).trans ?_
  refine (here_skip_prepend s t _ _).trans ?_
  rw [if_pos rfl]
  refine (bind_of_ok (require_eq_ok.mpr ran)).trans ?_
  exact bind_of_ok (expectSeparator_eq_ok.mpr ⟨closes, rfl⟩)

theorem symbol_ne_opening (op : AccessOp) : '('.toString ≠ op.symbol := by
  cases op <;> decide

/-- Where a member comes next, a suffix is a member. -/
theorem parseSuffix_of_next (next : s.Next OpensMember) :
    parseSuffix inner s = parseMember inner s := by
  have absent : ¬s.Next fun t => t.isSeparator '(' = true := by
    obtain ⟨t, head, op, -, found⟩ := next
    rintro ⟨t', head', opens⟩
    cases head.symm.trans head'
    have text := (Token.isSeparator_iff.mp opens).2
    exact symbol_ne_opening op (text.symm.trans (AccessOp.symbol_of_ofSymbol? found))
  exact bind_of_ok (takeIf_of_not_next absent)

theorem parseSuffix_of_arguments {args : List Node} (opens : t.isSeparator '(' = true)
    (ran : parseArguments inner (s.prepend ts) = .ok args s) :
    parseSuffix inner (s.prepend (t :: ts)) = .ok (some (.arguments args t.location)) s := by
  refine (bind_of_ok (takeIf_of_next opens s ts)).trans ?_
  exact bind_of_ok ran

theorem parseSuffix_of_stops (stops : Stops Precedence.call s) :
    parseSuffix inner s = .ok none s := by
  have absent := stops.not_next (Nat.le_refl _) fun _ => Attaches.call
  refine (bind_of_ok (takeIf_of_not_next absent)).trans ?_
  exact parseMember_of_not_next (stops.not_next (by decide) fun _ => Attaches.member)

theorem parseSuffix_progresses (sound : Sound d inner) : Progresses (parseSuffix inner) :=
  (parseSuffix_takes sound).progresses fun ⟨_, _, same, _⟩ => by simp [same]

theorem takeStep_of_stops (stops : Stops Precedence.update s) : takeStep s = .ok none s := by
  refine bind_of_ok (takeIf_of_not_next (stops.not_next (Nat.le_refl _) ?_))
  intro t passes
  simp only [Bool.and_eq_true, decide_eq_true_eq] at passes
  obtain ⟨op, found⟩ := Option.isSome_iff_exists.mp passes.2
  exact .step op (Token.isOperator_iff.mpr ⟨passes.1, Step.symbol_of_ofSymbol? found⟩)

theorem takeStep_of_next {op : Step} (spelled : t.isOperator op.symbol = true) :
    takeStep (s.prepend [t]) = .ok (some (op, t.location)) s := by
  obtain ⟨kind, text⟩ := Token.isOperator_iff.mp spelled
  have found : Step.ofSymbol? t.text = some op := by rw [text, Step.ofSymbol?_symbol]
  refine (bind_of_ok (takeIf_of_next (by simp [kind, found]) s [])).trans ?_
  simp [found]

/-- All members first and then all suffixes are all suffixes. -/
theorem growing_members_suffixes (sound : Sound d inner) (n : Node) (s : Tokens) :
    (growing Suffix.apply (parseMember inner) n >>= fun
      | some m => growing Suffix.apply (parseSuffix inner) m
      | none => pure none) s =
    growing Suffix.apply (parseSuffix inner) n s := by
  by_cases next : s.Next OpensMember
  · have same : parseSuffix inner s = parseMember inner s := parseSuffix_of_next next
    cases ran : parseMember inner s with
    | error e s₁ =>
        rw [ran] at same
        have first : many (parseMember inner) s = .error e s₁ := bind_of_error ran
        have second : many (parseSuffix inner) s = .error e s₁ := bind_of_error same
        simp only [growing, bind, EStateM.bind, first, second]
    | ok r s₁ =>
        cases r with
        | none => exact absurd next (not_next_of_parseMember ran)
        | some x =>
            rw [ran] at same
            have shorter := parseMember_progresses sound ran
            rw [growing_of_some (parseSuffix_progresses sound) same,
              ← growing_members_suffixes sound (x.apply n) s₁]
            simp only [bind, EStateM.bind, growing_of_some (parseMember_progresses sound) ran]
  · exact bind_of_ok (growing_of_none (parseMember_of_not_next next))
termination_by s.pending.length

/-! ## Levels of operators -/

/-- The parser of a chain of operands. -/
def chainParser (d : Nat) (levels : List (List BinaryOp)) : Parse (Option Node) :=
  levels.foldr leftChain (within d).operand

/-- Append an operator and an operand. -/
def Link.join (lhs : Node) (l : Link) : Node :=
  .binary l.1 lhs l.2.2 l.2.1

/-! ## What the parsers do in front of a phrase -/

/-- What the parser of a phrase does on a row that begins with the phrase. -/
def Completes (d : Nat) : Phrase → List Token → Node → Prop
  | .expression, ts, n => ∀ s, Stops Precedence.comma s →
      parseExpression (within d) (s.prepend ts) = .ok (some n) s
  | .list, ts, n => ∃ first others, n = .comma (first :: others) first.location ∧
      ∀ after s, Stops Precedence.assignment s → ∃ s₁,
        parseAssignment (within d) (s.prepend ts) = .ok (some first) s₁ ∧
        Repeats (furtherItem after (within d)) others s₁ s
  | .assignment, ts, n => ∀ s, Stops Precedence.assignment s →
      parseAssignment (within d) (s.prepend ts) = .ok (some n) s
  | .conditional, ts, n => ∀ s, Stops Precedence.conditional s →
      parseConditional (within d) (s.prepend ts) = .ok (some n) s
  | .chain [], ts, n => ∀ s, Stops Precedence.unary s →
      chainParser d [] (s.prepend ts) = .ok (some n) s
  | .chain (ops :: levels), ts, n => Ordered (ops :: levels) → ∀ s, Stops (chainLimit levels) s →
      chainParser d (ops :: levels) (s.prepend ts) =
        growing Link.join (link ops (chainParser d levels)) n s
  | .operand, ts, n => ∀ s, Stops Precedence.unary s →
      parseOperand (within d) (s.prepend ts) = .ok (some n) s
  | .update, ts, n => ∀ s, Stops Precedence.update s →
      parseUpdate (within d) (s.prepend ts) = .ok (some n) s
  | .call, ts, n => ∀ s, (n.isNew = true → ¬s.Next OpensMember) →
      parseCall (within d) (s.prepend ts) = growing Suffix.apply (parseSuffix (within d)) n s
  | .access, ts, n => ∀ s, (n.isNew = true → ¬s.Next OpensMember) →
      parseAccess (within d) (s.prepend ts) = growing Suffix.apply (parseMember (within d)) n s
  | .object, ts, n => n.isNew = false ∧ ∀ s,
      parseAccess (within d) (s.prepend ts) = growing Suffix.apply (parseMember (within d)) n s
  | .atom, ts, n => ∀ s, parseAtom (within d) (s.prepend ts) = .ok (some n) s

theorem Completes.chain_of_stops {levels : List (List BinaryOp)}
    (completes : Completes d (.chain levels) ts n) (ordered : Ordered levels)
    (stops : Stops (chainLimit levels) s) :
    chainParser d levels (s.prepend ts) = .ok (some n) s := by
  cases levels with
  | nil => exact completes s stops
  | cons ops levels =>
      have ends := stops.mono (Nat.le_of_lt ordered.1)
      refine (completes ordered s ends).trans (growing_of_none ?_)
      exact link_of_stops stops fun op mem => Nat.le_of_eq (ordered.2.1 op mem).1

theorem Completes.binary_of_stops (completes : Completes d (.chain binaryLevels) ts n)
    (stops : Stops 140 s) : parseChain (within d) (s.prepend ts) = .ok (some n) s :=
  completes.chain_of_stops ordered_binaryLevels stops

theorem Completes.call_of_stops (completes : Completes d .call ts n)
    (stops : Stops Precedence.call s) : parseCall (within d) (s.prepend ts) = .ok (some n) s := by
  refine (completes s fun _ => ?_).trans (growing_of_none (parseSuffix_of_stops stops))
  exact stops.not_next (by decide) fun _ => Attaches.member

/-! ### Commas, assignments and conditions -/

theorem Completes.single (item : Completes d .assignment ts n) :
    Completes d .expression ts n := by
  intro s stops
  refine (bind_of_ok (item s (stops.mono (by decide)))).trans ?_
  exact bind_of_ok (many_of_none (furtherItem_of_stops stops))

theorem Completes.several {ns : List Node} {place : Location}
    (all : Completes d .list ts (.comma ns place)) (two : 2 ≤ ns.length) :
    Completes d .expression ts (.comma ns place) := by
  obtain ⟨first, others, same, runs⟩ := all
  cases same
  intro s stops
  obtain ⟨s₁, ran, repeated⟩ := runs "','" s (stops.mono (by decide))
  have all := repeated.ends (furtherItem_of_stops stops)
  refine (bind_of_ok ran).trans ((bind_of_ok all).trans ?_)
  cases others with
  | nil => simp at two
  | cons second more => rfl

theorem Completes.first (item : Completes d .assignment ts n) :
    Completes d .list ts (.comma [n] n.location) := by
  exact ⟨n, [], rfl, fun after s stops => ⟨s, item s stops, .nil⟩⟩

theorem Completes.further {ns : List Node} {place : Location} {us : List Token}
    (items : Completes d .list ts (.comma ns place)) (separated : t.isOperator "," = true)
    (item : Completes d .assignment us n) :
    Completes d .list (ts ++ t :: us) (.comma (ns ++ [n]) place) := by
  obtain ⟨first, others, same, runs⟩ := items
  cases same
  refine ⟨first, others ++ [n], rfl, fun after s stops => ?_⟩
  obtain ⟨s₁, ran, repeated⟩ :=
    runs after (s.prepend (t :: us)) (stops_of_comma separated (by decide))
  rw [Tokens.prepend_append]
  exact ⟨s₁, ran, repeated.append_singleton (furtherItem_progresses (sound_within d) after)
    (furtherItem_of_comma separated (item s stops))⟩

theorem Completes.unassigned (value : Completes d .conditional ts n) :
    Completes d .assignment ts n := by
  intro s stops
  refine (bind_of_ok (value s (stops.mono (by decide)))).trans ?_
  exact bind_of_ok (link_of_stops stops (by decide))

theorem Completes.assigned {op : BinaryOp} {us : List Token} {m : Node}
    (target : Completes (d + 1) .conditional ts n) (mem : op ∈ BinaryOp.assignments ++ [.lambda])
    (spelled : t.Spells op.symbol) (value : Completes d .assignment us m) :
    Completes (d + 1) .assignment (ts ++ t :: us) (.binary op n m t.location) := by
  intro s stops
  have ends : Stops Precedence.conditional (s.prepend (t :: us)) := by
    refine stops_of_spells spelled ?_
    rw [(precedence_assignments op mem).1]
    decide
  rw [Tokens.prepend_append]
  refine (bind_of_ok (target _ ends)).trans ?_
  exact bind_of_ok (link_of_spells mem spelled (value s stops))

theorem Completes.unconditional (value : Completes d (.chain binaryLevels) ts n) :
    Completes d .conditional ts n := by
  intro s stops
  refine (bind_of_ok (value.binary_of_stops (stops.mono (by decide)))).trans ?_
  refine (bind_of_ok (takeOperator_of_stops stops (Nat.le_refl _) fun _ => .question)).trans ?_
  exact bind_of_ok (link_of_stops stops (by decide))

theorem Completes.ternary {us vs : List Token} {colon : Token} {y z : Node}
    (condition : Completes (d + 1) (.chain binaryLevels) ts n) (asked : t.isOperator "?" = true)
    (yes : Completes d .conditional us y) (divided : colon.isOperator ":" = true)
    (no : Completes d .conditional vs z) :
    Completes (d + 1) .conditional (ts ++ t :: us ++ colon :: vs)
      (.ternary n y z t.location) := by
  intro s stops
  have chain_ends : Stops 140 (s.prepend (t :: (us ++ colon :: vs))) :=
    stops_of_question asked (by decide)
  have found := yes (s.prepend (colon :: vs)) (stops_of_colon divided)
  rw [← Tokens.prepend_append] at found
  rw [List.append_assoc, Tokens.prepend_append]
  refine (bind_of_ok (condition.binary_of_stops chain_ends)).trans ?_
  refine (bind_of_ok (takeIf_of_next asked s _)).trans ?_
  refine (bind_of_ok (require_eq_ok.mpr found)).trans ?_
  refine (bind_of_ok (takeIf_of_next divided s _)).trans ?_
  exact bind_of_ok (require_eq_ok.mpr (no s stops))

theorem Completes.default {op : BinaryOp} {us : List Token} {m : Node}
    (value : Completes (d + 1) (.chain binaryLevels) ts n)
    (mem : op ∈ [BinaryOp.elvis, .coalesce]) (spelled : t.Spells op.symbol)
    (other : Completes d .conditional us m) :
    Completes (d + 1) .conditional (ts ++ t :: us) (.binary op n m t.location) := by
  intro s stops
  have ends : Stops 140 (s.prepend (t :: us)) := by
    refine stops_of_spells spelled ?_
    rw [(precedence_defaults op mem).1]
    decide
  have not_asked : ¬(s.prepend (t :: us)).Next (·.isOperator "?" = true) := by
    rw [Tokens.next_prepend_cons]
    exact not_isOperator_of_spells spelled (by decide)
  rw [Tokens.prepend_append]
  refine (bind_of_ok (value.binary_of_stops ends)).trans ?_
  refine (bind_of_ok (takeIf_of_not_next not_asked)).trans ?_
  exact bind_of_ok (link_of_spells mem spelled (other s stops))

/-! ### Operands joined by operators -/

theorem Completes.tighter {ops : List BinaryOp} {levels : List (List BinaryOp)}
    (value : Completes d (.chain levels) ts n) : Completes d (.chain (ops :: levels)) ts n := by
  intro ordered s stops
  exact bind_of_ok (value.chain_of_stops ordered.2.2 stops)

theorem Completes.joined {ops : List BinaryOp} {levels : List (List BinaryOp)} {op : BinaryOp}
    {us : List Token} {m : Node} (lhs : Completes d (.chain (ops :: levels)) ts n) (mem : op ∈ ops)
    (spelled : t.Spells op.symbol) (rhs : Completes d (.chain levels) us m) :
    Completes d (.chain (ops :: levels)) (ts ++ t :: us) (.binary op n m t.location) := by
  intro ordered s stops
  have looser : chainLimit levels < op.precedence := by
    rw [(ordered.2.1 op mem).1]
    exact ordered.1
  rw [Tokens.prepend_append, lhs ordered _ (stops_of_spells spelled looser)]
  exact growing_of_some (link_progresses (foldr_leftChain_takes (sound_within d) levels))
    (link_of_spells mem spelled (rhs.chain_of_stops ordered.2.2 stops))

/-! ### Operators before and behind operands -/

/-- No operator of `ops` comes next, where a phrase begins that has none of them. -/
theorem takeOneOf_of_derives {X : Phrase} {ops : List PrefixOp}
    (derived : Derives false d X ts n) (lexical : ∀ t ∈ ts, t.Lexical)
    (apart : ∀ op ∈ ops, op ∉ X.prefixes) (s : Tokens) :
    takeOneOf PrefixOp.symbol ops (s.prepend ts) = .ok none (s.prepend ts) := by
  obtain ⟨t, us, rfl, begins⟩ := derived.begins
  refine takeOneOf_of_not_next ?_
  rw [Tokens.next_prepend_cons]
  exact begins.not_spells (lexical t (by simp)) apart

theorem Completes.unprefixed (derived : Derives false d .update ts n)
    (lexical : ∀ t ∈ ts, t.Lexical) (value : Completes d .update ts n) :
    Completes d .operand ts n := by
  intro s stops
  refine (bind_of_ok (takeOneOf_of_derives derived lexical (by decide) s)).trans ?_
  exact value s (stops.mono (by decide))

theorem Completes.prefixed {op : PrefixOp} (mem : op ∈ PrefixOp.unary)
    (spelled : t.Spells op.symbol) (value : Completes d .operand ts n) :
    Completes (d + 1) .operand (t :: ts) (.prefixed op n t.location) := by
  intro s stops
  refine (bind_of_ok (takeOneOf_of_next (fun _ _ => PrefixOp.symbol_inj) mem spelled s ts)).trans ?_
  exact bind_of_ok (require_eq_ok.mpr (value s stops))

theorem Completes.unstepped (derived : Derives false d .call ts n)
    (lexical : ∀ t ∈ ts, t.Lexical) (value : Completes d .call ts n) :
    Completes d .update ts n := by
  intro s stops
  refine (bind_of_ok (takeOneOf_of_derives derived lexical (by decide) s)).trans ?_
  refine (bind_of_ok (value.call_of_stops (stops.mono (by decide)))).trans ?_
  exact bind_of_ok (takeStep_of_stops stops)

theorem Completes.steppedBefore {op : PrefixOp} (mem : op ∈ PrefixOp.steps)
    (spelled : t.Spells op.symbol) (value : Completes d .call ts n) :
    Completes d .update (t :: ts) (.prefixed op n t.location) := by
  intro s stops
  refine (bind_of_ok (takeOneOf_of_next (fun _ _ => PrefixOp.symbol_inj) mem spelled s ts)).trans ?_
  exact bind_of_ok (require_eq_ok.mpr (value.call_of_stops (stops.mono (by decide))))

theorem Completes.steppedBehind {op : Step} (derived : Derives false d .call ts n)
    (lexical : ∀ t ∈ ts, t.Lexical) (value : Completes d .call ts n)
    (spelled : t.isOperator op.symbol = true) :
    Completes d .update (ts ++ [t]) (.postfixed op n t.location) := by
  intro s stops
  have ends : Stops Precedence.call (s.prepend [t]) := stops_of_step spelled (by decide)
  rw [Tokens.prepend_append]
  refine (bind_of_ok (takeOneOf_of_derives derived lexical (by decide) _)).trans ?_
  refine (bind_of_ok (value.call_of_stops ends)).trans ?_
  exact bind_of_ok (takeStep_of_next spelled)

/-! ### Calls, members and atoms -/

theorem Completes.uncalled (value : Completes d .access ts n) : Completes d .call ts n := by
  intro s closed
  rw [← growing_members_suffixes (sound_within d)]
  show (parseAccess (within d) >>= _) _ = _
  simp only [bind, EStateM.bind, value s closed]
  cases growing Suffix.apply (parseMember (within d)) n s with
  | ok r s₁ => cases r <;> rfl
  | error e s₁ => rfl

/-- A suffix behind a call makes it grow. -/
theorem Completes.call_append {us : List Token} {x : Suffix} (callee : Completes d .call ts n)
    (closed : ∀ s : Tokens, n.isNew = true → ¬(s.prepend us).Next OpensMember)
    (ran : ∀ s : Tokens, parseSuffix (within d) (s.prepend us) = .ok (some x) s) :
    Completes d .call (ts ++ us) (x.apply n) := by
  intro s _
  rw [Tokens.prepend_append, callee _ (closed s)]
  exact growing_of_some (parseSuffix_progresses (sound_within d)) (ran s)

/-- An opening parenthesis opens no access to a member. -/
theorem not_next_of_opening (opens : t.isSeparator '(' = true) (s : Tokens) (ts : List Token) :
    ¬(s.prepend (t :: ts)).Next OpensMember := by
  rw [Tokens.next_prepend_cons]
  rintro ⟨op, -, found⟩
  have text := (Token.isSeparator_iff.mp opens).2
  exact symbol_ne_opening op (text.symm.trans (AccessOp.symbol_of_ofSymbol? found))

theorem Completes.calledEmpty {closing : Token} (callee : Completes d .call ts n)
    (opens : t.isSeparator '(' = true) (closes : closing.isSeparator ')' = true) :
    Completes d .call (ts ++ [t, closing]) (.call n [] t.location) := by
  refine callee.call_append (x := .arguments [] t.location)
    (fun s _ => not_next_of_opening opens s _) fun s => ?_
  exact parseSuffix_of_arguments opens (bind_of_ok (takeIf_of_next closes s []))

theorem Completes.called {us : List Token} {args : List Node} {place : Location} {closing : Token}
    (callee : Completes d .call ts n) (opens : t.isSeparator '(' = true)
    (derived : Derives false d .list us (.comma args place))
    (all : Completes d .list us (.comma args place)) (closes : closing.isSeparator ')' = true) :
    Completes d .call (ts ++ t :: us ++ [closing]) (.call n args t.location) := by
  rw [List.append_assoc]
  refine callee.call_append (x := .arguments args t.location)
    (fun s _ => not_next_of_opening opens s _) fun s => parseSuffix_of_arguments opens ?_
  obtain ⟨first, others, same, runs⟩ := all
  cases same
  have ends : ∀ p, Stops p (s.prepend [closing]) := fun p => stops_of_closing closes (by decide)
  obtain ⟨s₁, ran, repeated⟩ := runs "'(' or ','" (s.prepend [closing]) (ends _)
  have all := repeated.ends (furtherItem_of_stops (ends _))
  have not_closed : ¬(s.prepend (us ++ [closing])).Next (·.isSeparator ')' = true) := by
    obtain ⟨t, vs, rfl, begins⟩ := derived.begins
    rw [List.cons_append, Tokens.next_prepend_cons]
    exact begins.not_isSeparator (by decide)
  refine (bind_of_ok (takeIf_of_not_next not_closed)).trans ?_
  rw [Tokens.prepend_append]
  refine (bind_of_ok (require_eq_ok.mpr ran)).trans ((bind_of_ok all).trans ?_)
  exact bind_of_ok (takeIf_of_next closes s [])

theorem Completes.new (word : t.isSymbol "new" = true) (value : Completes d .access ts n) :
    Completes (d + 1) .access (t :: ts) (.prefixed .new n t.location) := by
  intro s closed
  have absent := closed rfl
  have operand := (value s fun _ => absent).trans
    (growing_of_none (parseMember_of_not_next absent))
  rw [growing_of_none (parseMember_of_not_next absent)]
  refine (bind_of_ok (takeIf_of_next word s ts)).trans ?_
  exact bind_of_ok (require_eq_ok.mpr operand)

theorem takeNew_of_derives (derived : Derives false d .atom ts n)
    (lexical : ∀ t ∈ ts, t.Lexical) (s : Tokens) :
    takeSymbol "new" (s.prepend ts) = .ok none (s.prepend ts) := by
  obtain ⟨t, us, rfl, begins⟩ := derived.begins
  refine takeIf_of_not_next ?_
  rw [Tokens.next_prepend_cons]
  intro word
  obtain ⟨kind, text⟩ := Token.isSymbol_iff.mp word
  exact begins.not_spells (lexical t (by simp)) (by simp [Phrase.prefixes])
    ⟨.new, List.mem_singleton.mpr rfl, .inr kind, text⟩

theorem Completes.bare (derived : Derives false d .atom ts n) (lexical : ∀ t ∈ ts, t.Lexical)
    (value : Completes d .atom ts n) : Completes d .object ts n := by
  refine ⟨isNew_of_atom derived, fun s => ?_⟩
  refine (bind_of_ok (takeNew_of_derives derived lexical s)).trans ?_
  exact bind_of_ok (value s)

/-- A member behind an object or a call makes it grow. -/
theorem Completes.member_append {X : Phrase} {us : List Token} {x : Suffix}
    (takes : X.TakesMembers) (object : Completes d X ts n) (notNew : n.isNew = false)
    (opens : OpensMember t)
    (ran : ∀ s : Tokens, parseMember (within d) (s.prepend (t :: us)) = .ok (some x) s) :
    Completes d X (ts ++ t :: us) (x.apply n) := by
  obtain rfl | rfl := takes
  · refine ⟨isNew_apply n x, fun s => ?_⟩
    rw [Tokens.prepend_append, object.2]
    exact growing_of_some (parseMember_progresses (sound_within d)) (ran s)
  · refine object.call_append (by simp [notNew]) fun s => ?_
    rw [parseSuffix_of_next ((Tokens.next_prepend_cons _ _ _ _).mpr opens)]
    exact ran s

theorem Completes.index {X : Phrase} {us : List Token} {m : Node} {closing : Token}
    (takes : X.TakesMembers) (object : Completes d X ts n) (notNew : n.isNew = false)
    (opens : t.Opens .index) (property : Completes d .expression us m)
    (closes : closing.isSeparator ']' = true) :
    Completes d X (ts ++ t :: us ++ [closing]) (.access .index n m t.location) := by
  rw [List.append_assoc]
  refine object.member_append (x := .member .index m t.location) takes notNew ⟨_, opens⟩
    fun s => parseMember_of_index opens ?_ closes
  rw [Tokens.prepend_append]
  exact property _ (stops_of_closing closes (by decide))

theorem Completes.paren {closing : Token} (opens : t.isSeparator '(' = true)
    (inside : Completes d .expression ts n) (closes : closing.isSeparator ')' = true) :
    Completes d .atom (t :: ts ++ [closing]) (enclose t.location n) := by
  intro s
  have found := inside (s.prepend [closing]) (stops_of_closing closes (by decide))
  rw [← Tokens.prepend_append] at found
  refine (bind_of_ok (peek_apply _)).trans ?_
  simp only [Tokens.pending_prepend, List.cons_append, List.head?_cons, opens, if_true]
  refine (bind_of_ok (skip_prepend s t _)).trans ?_
  refine (bind_of_ok (require_eq_ok.mpr found)).trans ?_
  exact bind_of_ok (expectSeparator_eq_ok.mpr ⟨closes, rfl⟩)

theorem not_isSeparator_of_kind {c : Char} (kind : t.kind ≠ .separator) :
    ¬t.isSeparator c = true := by
  intro separator
  exact kind (Token.isSeparator_iff.mp separator).1

theorem Completes.number (kind : t.kind = .number) :
    Completes d .atom [t] (.number (Numeral.value t.text.toList) t.text t.location) := by
  intro s
  refine (bind_of_ok (peek_apply _)).trans ?_
  simp only [Tokens.pending_prepend, List.cons_append, List.head?_cons]
  rw [if_neg (not_isSeparator_of_kind (by simp [kind])), if_pos kind]
  rfl

theorem Completes.string (kind : t.kind = .string) :
    Completes d .atom [t] (.string (Text.Quoted.decode t.text) t.text t.location) := by
  intro s
  refine (bind_of_ok (peek_apply _)).trans ?_
  simp only [Tokens.pending_prepend, List.cons_append, List.head?_cons]
  rw [if_neg (not_isSeparator_of_kind (by simp [kind])), if_neg (by simp [kind]), if_pos kind]
  rfl

theorem Completes.name (isName : isName t = true) :
    Completes d .atom [t] (.symbol t.text t.location) := by
  have kind : t.kind = .symbol := by
    simp only [Parse.isName, Bool.and_eq_true, decide_eq_true_eq] at isName
    exact isName.1
  intro s
  refine (bind_of_ok (peek_apply _)).trans ?_
  simp only [Tokens.pending_prepend, List.cons_append, List.head?_cons]
  rw [if_neg (not_isSeparator_of_kind (by simp [kind])), if_neg (by simp [kind]),
    if_neg (by simp [kind]), if_pos isName]
  rfl

/-- On a row of tokens of a text, every parser finds what the grammar derives. -/
theorem Derives.completes {X : Phrase} (derived : Derives false d X ts n)
    (lexical : ∀ t ∈ ts, t.Lexical) : Completes d X ts n := by
  induction derived with
  | single _ ih => exact (ih lexical).single
  | several _ two ih => exact (ih lexical).several two
  | first _ ih => exact (ih lexical).first
  | further _ separated _ ihs ih =>
      simp only [List.forall_mem_append, List.forall_mem_cons] at lexical
      exact (ihs lexical.1).further separated (ih lexical.2.2)
  | unassigned _ ih => exact (ih lexical).unassigned
  | assigned _ mem spelled _ iht ihv =>
      simp only [List.forall_mem_append, List.forall_mem_cons] at lexical
      exact (iht lexical.1).assigned mem spelled (ihv lexical.2.2)
  | unconditional _ ih => exact (ih lexical).unconditional
  | ternary _ asked _ divided _ ihc ihy ihn =>
      simp only [List.forall_mem_append, List.forall_mem_cons] at lexical
      exact (ihc lexical.1.1).ternary asked (ihy lexical.1.2.2) divided (ihn lexical.2.2)
  | default _ mem spelled _ ihv iho =>
      simp only [List.forall_mem_append, List.forall_mem_cons] at lexical
      exact (ihv lexical.1).default mem spelled (iho lexical.2.2)
  | unjoined _ ih => exact ih lexical
  | tighter _ ih => exact (ih lexical).tighter
  | joined _ mem spelled _ ihl ihr =>
      simp only [List.forall_mem_append, List.forall_mem_cons] at lexical
      exact (ihl lexical.1).joined mem spelled (ihr lexical.2.2)
  | unprefixed derived ih => exact (ih lexical).unprefixed derived lexical
  | prefixed mem spelled _ ih =>
      exact .prefixed mem spelled (ih (List.forall_mem_cons.mp lexical).2)
  | unstepped derived ih => exact (ih lexical).unstepped derived lexical
  | steppedBefore mem spelled _ ih =>
      exact .steppedBefore mem spelled (ih (List.forall_mem_cons.mp lexical).2)
  | steppedBehind derived spelled ih =>
      obtain ⟨lexical, -⟩ := List.forall_mem_append.mp lexical
      exact (ih lexical).steppedBehind derived lexical spelled
  | uncalled _ ih => exact (ih lexical).uncalled
  | calledEmpty _ opens closes ih =>
      exact (ih (List.forall_mem_append.mp lexical).1).calledEmpty opens closes
  | called _ opens derived closes ihc iha =>
      simp only [List.forall_mem_append, List.forall_mem_cons] at lexical
      exact (ihc lexical.1.1).called opens derived (iha lexical.1.2.2) closes
  | new word _ ih => exact .new word (ih (List.forall_mem_cons.mp lexical).2)
  | reached _ ih => exact fun s _ => (ih lexical).2 s
  | bare derived ih => exact (ih lexical).bare derived lexical
  | member takes _ reading opens named isName ih =>
      have object := ih (List.forall_mem_append.mp lexical).1
      exact object.member_append takes (by simpa using reading) ⟨_, opens⟩
        fun s => parseMember_of_name opens named isName
  | index takes _ reading opens _ closes iho ihp =>
      simp only [List.forall_mem_append, List.forall_mem_cons] at lexical
      exact (iho lexical.1.1).index takes (by simpa using reading) opens (ihp lexical.1.2.2) closes
  | paren opens _ closes ih =>
      simp only [List.forall_mem_append, List.cons_append, List.forall_mem_cons] at lexical
      exact .paren opens (ih lexical.2.1) closes
  | number kind => exact .number kind
  | string kind => exact .string kind
  | name isName => exact .name isName

end Scriptlet.Grammar
