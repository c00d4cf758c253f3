import Scriptlet.Grammar.Statement
import Scriptlet.Proofs.Node.Unplaced

/-! # What all parsers of the grammar share

The parsers of the grammar are put together from few others: those that look at the row of
tokens, take a token, or fail. A relation between two runs that passes through the ways of
putting parsers together, and holds of these, holds of the parsers at every level of nesting.
The two runs may be in different monads. What the second run finds is what the first does, as a
`View` shows it: it may leave the places out. A property of parsers is a relation that leaves the
second run out.
-/

namespace Scriptlet

/-- Is the fault that a member has no name? -/
def ParseError.Cause.missesMember : ParseError.Cause → Bool
  | .expected (.name after) => AccessOp.all.any fun op => after == "'" ++ op.symbol ++ "'"
  | _ => false

/-- The property holds of all parsers of a level. -/
structure Grammar.All (P : {α : Type} → Parse α → Prop) (g : Grammar) : Prop where
  statement : P g.statement
  assignment : P g.assignment
  conditional : P g.conditional
  operand : P g.operand
  access : P g.access

/-! ## What is left without places -/

/-- The same comment at the start of a text. -/
def Comment.unplaced (c : Comment) : Comment :=
  { c with location := .start }

/-- The same token at the start of a text, and the same comments. -/
def Token.unplaced (t : Token) : Token :=
  { t with location := .start, comments := t.comments.map Comment.unplaced }

theorem Token.isSeparator_unplaced (t : Token) (c : Char) :
    t.unplaced.isSeparator c = t.isSeparator c := rfl

/-- The same row of tokens, all at the start of a text. -/
def Tokens.unplaced (ts : Tokens) : Tokens :=
  { pending := ts.pending.map Token.unplaced, stop := .start }

/-! ## Views -/

/-- A way to look at trees and tokens: their parts are shown as they are alone, but places and
    comments may be shown otherwise. -/
structure View where
  place : Location → Location
  comments : List Comment → List Comment
  node : Node → Node
  empty (p : Location) : node (.empty p) = .empty (place p)
  block (body : List Node) (p : Location) : node (.block body p) = .block (body.map node) (place p)
  expression (expr : Node) (p : Location) :
    node (.expression expr p) = .expression (node expr) (place p)
  var (xs : List (Declarator Node)) (p : Location) :
    node (.var xs p) =
      .var (xs.map fun x => ⟨x.name, x.value.map node, place x.location⟩) (place p)
  chain (bs : List (Branch Node)) (p : Location) :
    node (.chain bs p) =
      .chain (bs.map fun b => ⟨b.word, b.condition.map node, node b.body⟩) (place p)
  comma (exprs : List Node) (p : Location) : node (.comma exprs p) = .comma (exprs.map node) (place p)
  paren (expr : Node) (p : Location) : node (.paren expr p) = .paren (node expr) (place p)
  prefixed (op : PrefixOp) (operand : Node) (p : Location) :
    node (.prefixed op operand p) = .prefixed op (node operand) (place p)
  postfixed (op : Step) (operand : Node) (p : Location) :
    node (.postfixed op operand p) = .postfixed op (node operand) (place p)
  binary (op : BinaryOp) (lhs rhs : Node) (p : Location) :
    node (.binary op lhs rhs p) = .binary op (node lhs) (node rhs) (place p)
  ternary (condition yes no : Node) (p : Location) :
    node (.ternary condition yes no p) = .ternary (node condition) (node yes) (node no) (place p)
  call (callee : Node) (args : List Node) (p : Location) :
    node (.call callee args p) = .call (node callee) (args.map node) (place p)
  access (op : AccessOp) (object property : Node) (p : Location) :
    node (.access op object property p) = .access op (node object) (node property) (place p)
  number (value : Double) (text : String) (p : Location) :
    node (.number value text p) = .number value text (place p)
  string (value text : String) (p : Location) :
    node (.string value text p) = .string value text (place p)
  symbol (name : String) (p : Location) : node (.symbol name p) = .symbol name (place p)

namespace View

/-- Everything as it is. -/
def plain : View where
  place := id
  comments := id
  node := id
  empty _ := rfl
  block _ _ := by simp
  expression _ _ := rfl
  var _ _ := by simp
  chain _ _ := by simp
  comma _ _ := by simp
  paren _ _ := rfl
  prefixed _ _ _ := rfl
  postfixed _ _ _ := rfl
  binary _ _ _ _ := rfl
  ternary _ _ _ _ := rfl
  call _ _ _ := by simp
  access _ _ _ _ := rfl
  number _ _ _ := rfl
  string _ _ _ := rfl
  symbol _ _ := rfl

/-- Everything at the start of a text. -/
def unplaced : View where
  place _ := .start
  comments := List.map Comment.unplaced
  node := Node.unplaced
  empty _ := rfl
  block := Node.unplaced_block
  expression _ _ := rfl
  var := Node.unplaced_var
  chain := Node.unplaced_chain
  comma := Node.view_unplaced.comma
  paren _ _ := rfl
  prefixed _ _ _ := rfl
  postfixed _ _ _ := rfl
  binary _ _ _ _ := rfl
  ternary _ _ _ _ := rfl
  call := Node.view_unplaced.call
  access _ _ _ _ := rfl
  number _ _ _ := rfl
  string _ _ _ := rfl
  symbol _ _ := rfl

variable (v : View)

def token (t : Token) : Token :=
  { t with location := v.place t.location, comments := v.comments t.comments }

def tokens (ts : Tokens) : Tokens :=
  { pending := ts.pending.map v.token, stop := v.place ts.stop }

def declarator (x : Declarator Node) : Declarator Node :=
  ⟨x.name, x.value.map v.node, v.place x.location⟩

def branch (b : Branch Node) : Branch Node :=
  ⟨b.word, b.condition.map v.node, v.node b.body⟩

def link : Grammar.Link → Grammar.Link
  | (op, p, n) => (op, v.place p, v.node n)

def suffix : Grammar.Suffix → Grammar.Suffix
  | .member op property p => .member op (v.node property) (v.place p)
  | .arguments args p => .arguments (args.map v.node) (v.place p)

/-- A view of something found together with its place. -/
def placed {α : Type} (found : α × Location) : α × Location :=
  (found.1, v.place found.2)

theorem location_node (n : Node) : (v.node n).location = v.place n.location := by
  cases n <;> simp only [v.empty, v.block, v.expression, v.var, v.chain, v.comma, v.paren,
    v.prefixed, v.postfixed, v.binary, v.ternary, v.call, v.access, v.number, v.string, v.symbol,
    Node.location]

theorem joinLeft (first : Node) (links : List Grammar.Link) :
    v.node (Grammar.joinLeft first links) =
      Grammar.joinLeft (v.node first) (links.map v.link) := by
  unfold Grammar.joinLeft
  induction links generalizing first with
  | nil => rfl
  | cons l links ih =>
      rw [List.foldl_cons, ih, List.map_cons, List.foldl_cons, v.binary]
      rfl

theorem applyAll (object : Node) (suffixes : List Grammar.Suffix) :
    v.node (Grammar.applyAll object suffixes) =
      Grammar.applyAll (v.node object) (suffixes.map v.suffix) := by
  unfold Grammar.applyAll
  induction suffixes generalizing object with
  | nil => rfl
  | cons s suffixes ih =>
      have applied : v.node (s.apply object) = (v.suffix s).apply (v.node object) := by
        cases s with
        | member op property p => exact v.access op object property p
        | arguments args p => exact v.call object args p
      rw [List.foldl_cons, ih, applied, List.map_cons, List.foldl_cons]

theorem enclose (p : Location) (n : Node) :
    v.node (Grammar.enclose p n) = Grammar.enclose (v.place p) (v.node n) := by
  cases n <;> simp only [v.empty, v.block, v.expression, v.var, v.chain, v.comma, v.paren,
    v.prefixed, v.postfixed, v.binary, v.ternary, v.call, v.access, v.number, v.string, v.symbol,
    Grammar.enclose]

@[simp] theorem plain_node : plain.node = id := rfl

@[simp] theorem plain_token : plain.token = id := rfl

@[simp] theorem plain_tokens : plain.tokens = id := by
  funext ts
  rw [tokens, plain_token, List.map_id]
  rfl

@[simp] theorem plain_declarator : plain.declarator = id := by
  funext x
  simp [declarator, plain]

@[simp] theorem plain_branch : plain.branch = id := by
  funext b
  simp [branch, plain]

@[simp] theorem plain_suffix : plain.suffix = id := by
  funext x
  cases x <;> simp [suffix, plain]

end View

/-! ## Ways to put parsers together -/

/-- The relation holds between the parsers of two levels. -/
structure Grammar.Both {m m' : Type → Type} (v : View)
    (P : {α : Type} → (α → α) → m α → m' α → Prop) (g : Level m) (g' : Level m') : Prop where
  statement : P (Option.map v.node) g.statement g'.statement
  assignment : P (Option.map v.node) g.assignment g'.assignment
  conditional : P (Option.map v.node) g.conditional g'.conditional
  operand : P (Option.map v.node) g.operand g'.operand
  access : P (Option.map v.node) g.access g'.access

theorem Grammar.Both.of_same {m m' : Type → Type} [Monad m] [LawfulMonad m]
    {R : {α : Type} → m α → m' α → Prop} {g : Level m} {g' : Level m'}
    (statement : R g.statement g'.statement) (assignment : R g.assignment g'.assignment)
    (conditional : R g.conditional g'.conditional) (operand : R g.operand g'.operand)
    (access : R g.access g'.access) : Grammar.Both .plain (fun f p p' => R (f <$> p) p') g g' := by
  constructor <;> simpa

namespace Parse

/-- The property holds of the parsers that all others are put together from, and passes on
    to the others. -/
structure Composes (P : {α : Type} → Parse α → Prop) : Prop where
  pure {α : Type} (a : α) : P (pure a : Parse α)
  bind {α β : Type} {p : Parse α} {f : α → Parse β} (first : P p) (second : ∀ a, P (f a)) :
    P (p >>= f)
  get : P (get : Parse Tokens)
  next : P next
  /-- Failing because of the next token, whatever it is. -/
  failNext {α : Type} {cause : ParseError.Cause} (other : cause.missesMember = false) :
    P (do failAt cause (← peek) : Parse α)
  refuseNext {α : Type} {cause : ParseError.Cause} (other : cause.missesMember = false) :
    P (refuseNext cause : Parse α)
  /-- Failing for want of a token. -/
  failAtEnd {α : Type} (cause : ParseError.Cause) : P (failAt cause none : Parse α)
  /-- The only parser that takes the token it fails at. -/
  memberName (op : AccessOp) : P (Grammar.memberName op)

variable {m m' : Type → Type} [Monad m] [MonadLiftT Parse m] [Monad m'] [MonadLiftT Parse m']

/-- The relation holds between two runs of the parsers that all others are put together from, and
    passes on to the others. The function says what the second run finds where the first finds
    something. -/
structure Corresponds (v : View) (P : {α : Type} → (α → α) → m α → m' α → Prop) : Prop where
  pure {α : Type} {f : α → α} {a b : α} (same : f a = b) : P f (pure a) (pure b)
  bind {α β : Type} {f : α → α} {g : β → β} {p : m α} {p' : m' α} {q : α → m β} {q' : α → m' β}
    (first : P f p p') (second : ∀ a, P g (q a) (q' (f a))) : P g (p >>= q) (p' >>= q')
  map {α β : Type} {f : α → α} {g : β → β} {h : α → β} {p : m α} {p' : m' α}
    (first : P f p p') (same : ∀ a, g (h a) = h (f a)) : P g (h <$> p) (h <$> p')
  get : P v.tokens (liftM (get : Parse Tokens)) (liftM (get : Parse Tokens))
  next : P (Option.map v.token) (liftM next) (liftM next)
  failNext {α : Type} {f : α → α} {cause : ParseError.Cause}
    (other : cause.missesMember = false) :
    P f (do failAt cause (← peek)) (do failAt cause (← peek))
  refuseNext {α : Type} {f : α → α} {cause : ParseError.Cause}
    (other : cause.missesMember = false) :
    P f (liftM (refuseNext cause : Parse α)) (liftM (refuseNext cause : Parse α))
  failAtEnd {α : Type} {f : α → α} (cause : ParseError.Cause) :
    P f (liftM (failAt cause none : Parse α)) (liftM (failAt cause none : Parse α))
  memberName (op : AccessOp) :
    P v.node (liftM (Grammar.memberName op)) (liftM (Grammar.memberName op))

namespace Corresponds

/-- Both runs take the same branch. -/
theorem branch {m m' : Type → Type} {P : {α : Type} → (α → α) → m α → m' α → Prop} {α : Type}
    {f : α → α} {test : Prop} {i j : Decidable test} {p q : m α} {p' q' : m' α} (yes : P f p p')
    (no : P f q q') : P f (@ite _ test i p q) (@ite _ test j p' q') := by
  -- The tests of the two runs are the same once unfolded, but decided by two instances.
  by_cases h : test
  · rw [if_pos h, if_pos h]
    exact yes
  · rw [if_neg h, if_neg h]
    exact no

theorem branch_lift {m m' : Type → Type} [MonadLiftT Parse m] [MonadLiftT Parse m']
    {P : {α : Type} → (α → α) → m α → m' α → Prop} {α : Type} {f : α → α} {test : Prop}
    {i j : Decidable test} {p q p' q' : Parse α} (yes : P f (liftM p) (liftM p'))
    (no : P f (liftM q) (liftM q')) :
    P f (liftM (@ite _ test i p q)) (liftM (@ite _ test j p' q')) :=
  branch (P := fun f p p' => P f (liftM p) (liftM p')) yes no

variable {v : View} {P : {α : Type} → (α → α) → m α → m' α → Prop} {α β : Type}
  {inner : Level m} {inner' : Level m'}

/-- Both runs find a tree, the second one what is seen of the first. -/
theorem found (c : Corresponds v P) {n n' : Node} (same : v.node n = n') :
    P (Option.map v.node) (Pure.pure (some n)) (Pure.pure (some n')) :=
  c.pure (congrArg some same)

theorem require (c : Corresponds v P) (after : String) {p : m (Option Node)}
    {p' : m' (Option Node)} (h : P (Option.map v.node) p p') :
    P v.node (Parse.require after p) (Parse.require after p') := by
  refine c.bind h fun r => ?_
  cases r with
  | none => exact c.refuseNext rfl
  | some n => exact c.pure rfl

theorem manyUpTo (c : Corresponds v P) {f : α → α} {step : m (Option α)} {step' : m' (Option α)}
    (h : P (Option.map f) step step') :
    ∀ limit, P (List.map f) (Parse.manyUpTo step limit) (Parse.manyUpTo step' limit)
  | 0 => c.pure rfl
  | limit + 1 => by
      refine c.bind h fun r => ?_
      cases r with
      | none => exact c.pure rfl
      | some a => exact c.bind (manyUpTo c h limit) fun _ => c.pure rfl

theorem many (c : Corresponds v P) {f : α → α} {step : m (Option α)} {step' : m' (Option α)}
    (h : P (Option.map f) step step') : P (List.map f) (Parse.many step) (Parse.many step') := by
  refine c.bind h fun r => ?_
  cases r with
  | none => exact c.pure rfl
  | some a =>
      -- Both runs count the same number of tokens, so they are limited to the same rounds.
      refine c.bind c.get fun s => ?_
      rw [show (v.tokens s).pending.length = s.pending.length from List.length_map ..]
      exact c.bind (c.manyUpTo h _) fun _ => c.pure rfl

theorem parseBody (c : Corresponds v P) (both : Grammar.Both v P inner inner') (word : BranchWord) :
    P v.node (Grammar.parseBody inner word) (Grammar.parseBody inner' word) := by
  refine c.bind both.statement fun r => ?_
  cases r with
  | none => exact c.refuseNext rfl
  | some n => exact c.pure rfl

theorem exhausted (c : Corresponds v P) :
    Grammar.Both v P (Grammar.exhausted : Level m) (Grammar.exhausted : Level m') :=
  ⟨c.failAtEnd _, c.failAtEnd _, c.failAtEnd _, c.failAtEnd _, c.failAtEnd _⟩

/-! ## Small parsers -/

variable [LawfulMonadLiftT Parse m] [LawfulMonadLiftT Parse m']

theorem pure_lift (c : Corresponds v P) {f : α → α} {a b : α} (same : f a = b) :
    P f (liftM (Pure.pure a : Parse α)) (liftM (Pure.pure b : Parse α)) := by
  simp only [monadLift_pure]
  exact c.pure same

theorem bind_lift (c : Corresponds v P) {f : α → α} {g : β → β} {p p' : Parse α}
    {q q' : α → Parse β} (first : P f (liftM p) (liftM p'))
    (second : ∀ a, P g (liftM (q a)) (liftM (q' (f a)))) :
    P g (liftM (p >>= q)) (liftM (p' >>= q')) := by
  simp only [monadLift_bind]
  exact c.bind first second

theorem peek (c : Corresponds v P) :
    P (Option.map v.token) (liftM Parse.peek) (liftM Parse.peek) :=
  c.bind_lift c.get fun _ => c.pure_lift (List.head?_map ..).symm

theorem peekTwo (c : Corresponds v P) :
    P (Prod.map (Option.map v.token) (Option.map v.token)) (liftM Parse.peekTwo)
      (liftM Parse.peekTwo) :=
  c.bind_lift c.get fun s => c.bind_lift c.get fun s' => c.pure_lift (by simp [View.tokens])

theorem skip (c : Corresponds v P) : P id (liftM Parse.skip) (liftM Parse.skip) := by
  have taken : Parse.skip = (do let _ ← Parse.next; return ()) := rfl
  rw [taken]
  exact c.bind_lift c.next fun _ => c.pure_lift rfl

theorem here (c : Corresponds v P) : P v.place (liftM Parse.here) (liftM Parse.here) := by
  refine c.bind_lift c.get fun s => c.pure_lift ?_
  obtain ⟨_ | ⟨t, rest⟩, stop⟩ := s <;> rfl

theorem takeIf (c : Corresponds v P) {test : Token → Bool} (blind : ∀ t, test (v.token t) = test t) :
    P (Option.map v.token) (liftM (Parse.takeIf test)) (liftM (Parse.takeIf test)) := by
  refine c.bind_lift c.peek fun r => ?_
  cases r with
  | none => exact c.pure_lift rfl
  | some t =>
      simp only [Option.map_some, blind]
      split
      · exact c.next
      · exact c.pure_lift rfl

theorem expectSeparator (c : Corresponds v P) (ch : Char) {what : Expectation}
    (other : (ParseError.Cause.expected what).missesMember = false) :
    P v.token (liftM (Parse.expectSeparator ch what)) (liftM (Parse.expectSeparator ch what)) := by
  refine c.bind_lift (c.takeIf fun _ => rfl) fun r => ?_
  cases r with
  | none => exact c.refuseNext other
  | some t => exact c.pure_lift rfl

theorem takeOneOf (c : Corresponds v P) (symbol : α → String) (ops : List α) :
    P (Option.map v.placed) (liftM (Parse.takeOneOf symbol ops))
      (liftM (Parse.takeOneOf symbol ops)) := by
  refine c.bind_lift c.peek fun r => ?_
  cases r with
  | none => exact c.pure_lift rfl
  | some t =>
      refine branch_lift ?_ (c.pure_lift rfl)
      have same : (v.token t).text = t.text := rfl
      rw [same]
      split
      · exact c.bind_lift c.skip fun _ => c.pure_lift rfl
      · exact c.pure_lift rfl

/-! ## Expressions -/

theorem link (c : Corresponds v P) (ops : List BinaryOp) {operand : m (Option Node)}
    {operand' : m' (Option Node)} (h : P (Option.map v.node) operand operand') :
    P (Option.map v.link) (Grammar.link ops operand) (Grammar.link ops operand') := by
  refine c.bind (c.takeOneOf _ _) fun r => ?_
  cases r with
  | none => exact c.pure rfl
  | some found => exact c.bind (c.require _ h) fun _ => c.pure rfl

theorem leftChain (c : Corresponds v P) (ops : List BinaryOp) {operand : m (Option Node)}
    {operand' : m' (Option Node)} (h : P (Option.map v.node) operand operand') :
    P (Option.map v.node) (Grammar.leftChain ops operand) (Grammar.leftChain ops operand') := by
  refine c.bind h fun r => ?_
  cases r with
  | none => exact c.pure rfl
  | some first =>
      exact c.bind (c.many (c.link ops h)) fun links => c.found (v.joinLeft first links)

theorem foldr_leftChain (c : Corresponds v P) (both : Grammar.Both v P inner inner')
    (levels : List (List BinaryOp)) :
    P (Option.map v.node) (levels.foldr Grammar.leftChain inner.operand)
      (levels.foldr Grammar.leftChain inner'.operand) := by
  induction levels with
  | nil => exact both.operand
  | cons ops levels ih => exact c.leftChain ops ih

theorem parseChain (c : Corresponds v P) (both : Grammar.Both v P inner inner') :
    P (Option.map v.node) (Grammar.parseChain inner) (Grammar.parseChain inner') :=
  c.foldr_leftChain both Grammar.binaryLevels

theorem parseConditional (c : Corresponds v P) (both : Grammar.Both v P inner inner') :
    P (Option.map v.node) (Grammar.parseConditional inner)
      (Grammar.parseConditional inner') := by
  refine c.bind (c.parseChain both) fun r => ?_
  cases r with
  | none => exact c.pure rfl
  | some condition =>
      have defaulted := c.link [.elvis, .coalesce] both.conditional
      refine c.bind (c.takeIf fun _ => rfl) fun r => ?_
      cases r with
      | none =>
          refine c.bind defaulted fun r => ?_
          cases r with
          | none => exact c.pure rfl
          | some l => exact c.found (v.binary ..)
      | some question =>
          refine c.bind (c.require _ both.conditional) fun yes => ?_
          refine c.bind (c.takeIf fun _ => rfl) fun r => ?_
          cases r with
          | none =>
              -- What stands behind a refusal is never run, but it is part of the parser.
              refine c.bind (f := id) (c.refuseNext rfl) fun _ => ?_
              refine c.bind defaulted fun r => ?_
              cases r with
              | none => exact c.pure rfl
              | some l => exact c.found (v.binary ..)
          | some colon => exact c.bind (c.require _ both.conditional) fun _ => c.found (v.ternary ..)

theorem parseAssignment (c : Corresponds v P) (both : Grammar.Both v P inner inner') :
    P (Option.map v.node) (Grammar.parseAssignment inner)
      (Grammar.parseAssignment inner') := by
  refine c.bind (c.parseConditional both) fun r => ?_
  cases r with
  | none => exact c.pure rfl
  | some target =>
      refine c.bind (c.link _ both.assignment) fun r => ?_
      cases r with
      | none => exact c.pure rfl
      | some l => exact c.found (v.binary ..)

theorem furtherItem (c : Corresponds v P) (both : Grammar.Both v P inner inner') (after : String) :
    P (Option.map v.node) (Grammar.furtherItem after inner)
      (Grammar.furtherItem after inner') := by
  refine c.bind (c.takeIf fun _ => rfl) fun r => ?_
  cases r with
  | none => exact c.pure rfl
  | some comma => exact c.map (c.require _ (c.parseAssignment both)) fun _ => rfl

theorem parseExpression (c : Corresponds v P) (both : Grammar.Both v P inner inner') :
    P (Option.map v.node) (Grammar.parseExpression inner)
      (Grammar.parseExpression inner') := by
  refine c.bind (c.parseAssignment both) fun r => ?_
  cases r with
  | none => exact c.pure rfl
  | some first =>
      refine c.bind (c.many (c.furtherItem both _)) fun others => ?_
      cases others with
      | nil => exact c.pure rfl
      | cons second more =>
          refine c.found ((v.comma _ _).trans ?_)
          rw [v.location_node]
          rfl

theorem parseAtom (c : Corresponds v P) (both : Grammar.Both v P inner inner') :
    P (Option.map v.node) (Grammar.parseAtom inner) (Grammar.parseAtom inner') := by
  refine c.bind c.peek fun r => ?_
  cases r with
  | none => exact c.pure rfl
  | some t =>
      refine branch ?_ (branch ?_ (branch ?_ (branch ?_ (c.pure rfl))))
      · refine c.bind c.skip fun _ => ?_
        refine c.bind (c.require _ (c.parseExpression both)) fun n => ?_
        refine c.bind (c.expectSeparator _ rfl) fun _ => ?_
        exact c.found (v.enclose t.location n)
      · exact c.bind c.skip fun _ => c.found (v.number ..)
      · exact c.bind c.skip fun _ => c.found (v.string ..)
      · exact c.bind c.skip fun _ => c.found (v.symbol ..)

theorem peekAccess (c : Corresponds v P) :
    P id (liftM Grammar.peekAccess) (liftM Grammar.peekAccess) := by
  refine c.bind_lift c.peek fun r => ?_
  cases r with
  | none => exact c.pure_lift rfl
  | some t =>
      exact branch_lift (c.pure_lift rfl) (c.pure_lift rfl)

theorem parseMember (c : Corresponds v P) (both : Grammar.Both v P inner inner') :
    P (Option.map v.suffix) (Grammar.parseMember inner)
      (Grammar.parseMember inner') := by
  refine c.bind c.peekAccess fun r => ?_
  cases r with
  | none => exact c.pure rfl
  | some op =>
      refine c.bind c.here fun place => c.bind c.skip fun _ => ?_
      refine branch ?_ ?_
      · refine c.bind (c.require _ (c.parseExpression both)) fun n => ?_
        exact c.bind (c.expectSeparator _ rfl) fun _ => c.pure rfl
      · exact c.bind (c.memberName op) fun _ => c.pure rfl

theorem parseAccess (c : Corresponds v P) (both : Grammar.Both v P inner inner') :
    P (Option.map v.node) (Grammar.parseAccess inner) (Grammar.parseAccess inner') := by
  refine c.bind (c.takeIf fun _ => rfl) fun r => ?_
  cases r with
  | none =>
      refine c.bind (c.parseAtom both) fun r => ?_
      cases r with
      | none => exact c.pure rfl
      | some first =>
          exact c.bind (c.many (c.parseMember both)) fun members =>
            c.found (v.applyAll first members)
  | some word => exact c.bind (c.require _ both.access) fun _ => c.found (v.prefixed ..)

theorem parseArguments (c : Corresponds v P) (both : Grammar.Both v P inner inner') :
    P (List.map v.node) (Grammar.parseArguments inner)
      (Grammar.parseArguments inner') := by
  refine c.bind (c.takeIf fun _ => rfl) fun r => ?_
  cases r with
  | none =>
      refine c.bind (c.require _ (c.parseAssignment both)) fun first => ?_
      refine c.bind (c.many (c.furtherItem both _)) fun others => ?_
      refine c.bind (c.takeIf fun _ => rfl) fun r => ?_
      cases r with
      | none => exact c.refuseNext rfl
      | some closing => exact c.pure rfl
  | some closing => exact c.pure rfl

theorem parseSuffix (c : Corresponds v P) (both : Grammar.Both v P inner inner') :
    P (Option.map v.suffix) (Grammar.parseSuffix inner)
      (Grammar.parseSuffix inner') := by
  refine c.bind (c.takeIf fun _ => rfl) fun r => ?_
  cases r with
  | none => exact c.parseMember both
  | some opening => exact c.bind (c.parseArguments both) fun _ => c.pure rfl

theorem parseCall (c : Corresponds v P) (both : Grammar.Both v P inner inner') :
    P (Option.map v.node) (Grammar.parseCall inner) (Grammar.parseCall inner') := by
  refine c.bind (c.parseAccess both) fun r => ?_
  cases r with
  | none => exact c.pure rfl
  | some first =>
      exact c.bind (c.many (c.parseSuffix both)) fun suffixes =>
        c.found (v.applyAll first suffixes)

theorem takeStep (c : Corresponds v P) :
    P (Option.map v.placed) (liftM Grammar.takeStep) (liftM Grammar.takeStep) := by
  refine c.bind_lift (c.takeIf fun _ => rfl) fun r => ?_
  cases r with
  | none => exact c.pure_lift rfl
  | some t =>
      refine c.pure_lift ?_
      simp [View.token, View.placed, Function.comp_def]

theorem parseUpdate (c : Corresponds v P) (both : Grammar.Both v P inner inner') :
    P (Option.map v.node) (Grammar.parseUpdate inner) (Grammar.parseUpdate inner') := by
  refine c.bind (c.takeOneOf _ _) fun r => ?_
  cases r with
  | none =>
      refine c.bind (c.parseCall both) fun r => ?_
      cases r with
      | none => exact c.pure rfl
      | some operand =>
          refine c.bind c.takeStep fun r => ?_
          cases r with
          | none => exact c.pure rfl
          | some found => exact c.found (v.postfixed ..)
  | some found => exact c.bind (c.require _ (c.parseCall both)) fun _ => c.found (v.prefixed ..)

theorem parseOperand (c : Corresponds v P) (both : Grammar.Both v P inner inner') :
    P (Option.map v.node) (Grammar.parseOperand inner) (Grammar.parseOperand inner') := by
  refine c.bind (c.takeOneOf _ _) fun r => ?_
  cases r with
  | none => exact c.parseUpdate both
  | some found => exact c.bind (c.require _ both.operand) fun _ => c.found (v.prefixed ..)

/-! ## Statements -/

theorem parseBlock (c : Corresponds v P) (both : Grammar.Both v P inner inner') :
    P v.node (Grammar.parseBlock inner) (Grammar.parseBlock inner') := by
  refine c.bind (c.expectSeparator _ rfl) fun opening => ?_
  refine c.bind (c.many both.statement) fun body => c.bind (c.takeIf fun _ => rfl) fun r => ?_
  have done : P v.node (Pure.pure (Node.block body opening.location))
      (Pure.pure (Node.block (body.map v.node) (v.place opening.location))) :=
    c.pure (v.block body opening.location)
  simp only [Option.isNone_map, List.isEmpty_map]
  split
  · exact c.bind (f := id) (c.failAtEnd _) fun _ => done
  · exact done

theorem parseDeclarator (c : Corresponds v P) (both : Grammar.Both v P inner inner') :
    P v.declarator (Grammar.parseDeclarator inner)
      (Grammar.parseDeclarator inner') := by
  refine c.bind (c.takeIf fun _ => rfl) fun r => ?_
  cases r with
  | none => exact c.failNext rfl
  | some t =>
      refine c.bind (c.takeIf fun _ => rfl) fun r => ?_
      cases r with
      | none => exact c.pure rfl
      | some sign => exact c.bind (c.require _ (c.parseAssignment both)) fun _ => c.pure rfl

theorem furtherDeclarator (c : Corresponds v P) (both : Grammar.Both v P inner inner') :
    P (Option.map v.declarator) (Grammar.furtherDeclarator inner)
      (Grammar.furtherDeclarator inner') := by
  refine c.bind c.peekTwo fun r => ?_
  obtain ⟨_ | t, _ | u⟩ := r
  · exact c.pure rfl
  · exact c.pure rfl
  · exact c.pure rfl
  · refine branch ?_ (c.pure rfl)
    exact c.bind c.skip fun _ => c.map (c.parseDeclarator both) fun _ => rfl

theorem parseVar (c : Corresponds v P) (both : Grammar.Both v P inner inner') :
    P v.node (Grammar.parseVar inner) (Grammar.parseVar inner') := by
  refine c.bind c.here fun place => c.bind c.skip fun _ => ?_
  refine c.bind (c.parseDeclarator both) fun first => ?_
  refine c.bind (c.many (c.furtherDeclarator both)) fun others => ?_
  exact c.bind (c.takeIf fun _ => rfl) fun _ => c.pure (v.var (first :: others) place)

theorem parseArm (c : Corresponds v P) (both : Grammar.Both v P inner inner') (word : BranchWord) :
    P v.branch (Grammar.parseArm inner word) (Grammar.parseArm inner' word) := by
  refine c.bind (c.expectSeparator _ rfl) fun opening => ?_
  refine c.bind (c.require _ (c.parseExpression both)) fun condition => ?_
  refine c.bind (c.expectSeparator _ rfl) fun closing => ?_
  exact c.bind (c.parseBody both word) fun _ => c.pure rfl

theorem furtherArm (c : Corresponds v P) (both : Grammar.Both v P inner inner') :
    P (Option.map v.branch) (Grammar.furtherArm inner)
      (Grammar.furtherArm inner') := by
  refine c.bind c.peekTwo fun r => ?_
  obtain ⟨_ | t, after⟩ := r
  · exact c.pure rfl
  have spread : P (Option.map v.branch)
      (do Parse.skip; Parse.skip; some <$> Grammar.parseArm inner .elseIf)
      (do Parse.skip; Parse.skip; some <$> Grammar.parseArm inner' .elseIf) := by
    refine c.bind c.skip fun _ => c.bind c.skip fun _ => ?_
    exact c.map (c.parseArm both .elseIf) fun _ => rfl
  refine branch ?_ (branch ?_ ?_)
  · exact c.bind c.skip fun _ => c.map (c.parseArm both .elseif) fun _ => rfl
  · exact c.bind c.skip fun _ => c.map (c.parseArm both .elsif) fun _ => rfl
  · cases after with
    | none => exact branch spread (c.pure rfl)
    | some u => exact branch spread (c.pure rfl)

theorem lastArm (c : Corresponds v P) (both : Grammar.Both v P inner inner') :
    P (List.map v.branch) (Grammar.lastArm inner) (Grammar.lastArm inner') := by
  refine c.bind (c.takeIf fun _ => rfl) fun r => ?_
  cases r with
  | none => exact c.pure rfl
  | some word => exact c.bind (c.parseBody both _) fun _ => c.pure rfl

theorem parseIf (c : Corresponds v P) (both : Grammar.Both v P inner inner') :
    P v.node (Grammar.parseIf inner) (Grammar.parseIf inner') := by
  refine c.bind c.here fun place => c.bind c.skip fun _ => ?_
  refine c.bind (c.parseArm both _) fun first => ?_
  refine c.bind (c.many (c.furtherArm both)) fun others => c.bind (c.lastArm both) fun last => ?_
  refine c.pure ((v.chain _ _).trans ?_)
  rw [List.map_append]
  rfl

theorem parseExpressionStatement (c : Corresponds v P) (both : Grammar.Both v P inner inner') :
    P v.node (Grammar.parseExpressionStatement inner)
      (Grammar.parseExpressionStatement inner') := by
  refine c.bind c.here fun place => c.bind (c.parseExpression both) fun r => ?_
  cases r with
  | none => exact c.refuseNext rfl
  | some expr =>
      refine c.bind c.peek fun r => ?_
      have ended : P v.node (do
          let _ ← takeSeparator ';'
          return Node.expression expr place) (do
          let _ ← takeSeparator ';'
          return Node.expression (v.node expr) (v.place place)) :=
        c.bind (c.takeIf fun _ => rfl) fun _ => c.pure (v.expression ..)
      cases r with
      | none => exact branch (c.bind (f := id) (c.refuseNext rfl) fun _ => ended) ended
      | some t => exact branch (c.bind (f := id) (c.refuseNext rfl) fun _ => ended) ended

theorem parseStatement (c : Corresponds v P) (both : Grammar.Both v P inner inner') :
    P (Option.map v.node) (Grammar.parseStatement inner)
      (Grammar.parseStatement inner') := by
  refine c.bind c.peek fun r => ?_
  cases r with
  | none => exact c.pure rfl
  | some t =>
      refine branch (c.pure rfl) (branch ?_ (branch ?_ (branch ?_ (branch ?_ ?_))))
      · exact c.bind c.skip fun _ => c.found (v.empty _)
      · exact c.map (c.parseBlock both) fun _ => rfl
      · exact c.map (c.parseVar both) fun _ => rfl
      · exact c.map (c.parseIf both) fun _ => rfl
      · exact c.map (c.parseExpressionStatement both) fun _ => rfl

/-- One level further out, the relation still holds. -/
theorem around (c : Corresponds v P) (both : Grammar.Both v P inner inner') :
    Grammar.Both v P (Grammar.around inner) (Grammar.around inner') :=
  ⟨c.parseStatement both, c.parseAssignment both, c.parseConditional both, c.parseOperand both,
    c.parseAccess both⟩

/-- The relation holds between the parsers at every level of nesting. -/
theorem within {P : {α : Type} → (α → α) → Parse α → Parse α → Prop} (c : Corresponds v P) :
    ∀ d, Grammar.Both v P (Grammar.within d) (Grammar.within d)
  | 0 => c.exhausted
  | d + 1 => c.around (within c d)

end Corresponds

/-! ## Relations between runs that find the same -/

section

variable {R : {α : Type} → m α → m' α → Prop} {α β : Type}

theorem map_failAt (f : α → β) (cause : ParseError.Cause) (found : Option Token) :
    f <$> (failAt cause found : Parse α) = failAt cause found := by
  cases found <;> rfl

theorem map_refuseNext (f : α → β) (cause : ParseError.Cause) :
    f <$> (refuseNext cause : Parse α) = refuseNext cause := by
  rw [refuseNext, refuseNext, map_bind]
  exact congrArg _ (funext fun found => map_failAt f _ found)

/-- Where the second run finds the same as the first, a relation need only hold between every
    parser and itself, and pass on from the parts of a sequence to the whole. -/
theorem Corresponds.of_same [LawfulMonad m] [LawfulMonad m'] [LawfulMonadLiftT Parse m]
    [LawfulMonadLiftT Parse m'] (lift : ∀ {α : Type} (p : Parse α), R (liftM p) (liftM p))
    (bind : ∀ {α β : Type} {f : α → α} {g : β → β} {p : m α} {p' : m' α} {q : α → m β}
      {q' : α → m' β}, R (f <$> p) p' → (∀ a, R (g <$> q a) (q' (f a))) →
        R (g <$> (p >>= q)) (p' >>= q')) :
    Corresponds .plain fun f p p' => R (f <$> p) p' := by
  have pure {α : Type} {f : α → α} {a b : α} (same : f a = b) :
      R (f <$> (Pure.pure a : m α)) (Pure.pure b : m' α) := by
    have here := lift (Pure.pure b : Parse α)
    simp only [monadLift_pure] at here
    rwa [map_pure, same]
  exact {
    pure := pure
    bind := bind
    map := fun {α β f g h p p'} first same => by
      rw [map_eq_pure_bind h p, map_eq_pure_bind h p']
      exact bind first fun a => pure (same a)
    get := by simpa using lift (MonadState.get : Parse Tokens)
    next := by simpa using lift Parse.next
    failNext := fun {α f cause} _ => by
      have here := lift (do failAt cause (← Parse.peek) : Parse α)
      simp only [monadLift_bind] at here
      simpa only [map_bind, ← monadLift_map, map_failAt] using here
    refuseNext := fun {α f cause} _ => by
      have here := lift (Parse.refuseNext cause : Parse α)
      simpa only [← monadLift_map, map_refuseNext] using here
    failAtEnd := fun {α f} cause => by
      have here := lift (failAt cause none : Parse α)
      simpa only [← monadLift_map, map_failAt] using here
    memberName := fun op => by simpa using lift (Grammar.memberName op) }

end

/-! ## Properties of single parsers -/

/-- The property holds of the first run. -/
def Alone (P : {α : Type} → Parse α → Prop) {α : Type} (_ : α → α) (p _ : Parse α) : Prop :=
  P p

namespace Composes

variable {P : {α : Type} → Parse α → Prop} {α : Type} {inner : Grammar}

theorem map (c : Composes P) {β : Type} {p : Parse α} (f : α → β) (h : P p) : P (f <$> p) := by
  rw [map_eq_pure_bind]
  exact c.bind h fun _ => c.pure _

theorem corresponds (c : Composes P) : Corresponds .plain (Alone P) where
  pure _ := c.pure _
  bind := c.bind
  map first _ := c.map _ first
  get := c.get
  next := c.next
  failNext := c.failNext
  refuseNext := c.refuseNext
  failAtEnd := c.failAtEnd
  memberName := c.memberName

theorem both (all : inner.All P) : Grammar.Both .plain (Alone P) inner inner :=
  ⟨all.statement, all.assignment, all.conditional, all.operand, all.access⟩

theorem many (c : Composes P) {step : Parse (Option α)} (h : P step) : P (Parse.many step) := by
  have alone : Alone P (Option.map id) step step := h
  exact c.corresponds.many alone

theorem parseExpression (c : Composes P) (all : inner.All P) :
    P (Grammar.parseExpression inner) :=
  c.corresponds.parseExpression (both all)

theorem parseBlock (c : Composes P) (all : inner.All P) : P (Grammar.parseBlock inner) :=
  c.corresponds.parseBlock (both all)

theorem parseStatement (c : Composes P) (all : inner.All P) : P (Grammar.parseStatement inner) :=
  c.corresponds.parseStatement (both all)

/-- The property holds of the parsers at every level of nesting. -/
theorem within (c : Composes P) (d : Nat) : (Grammar.within d).All P := by
  have both := c.corresponds.within d
  exact ⟨both.statement, both.assignment, both.conditional, both.operand, both.access⟩

end Composes

end Parse

end Scriptlet
