import Scriptlet.Operator

/-! # The operator tables

Every operator is found again by its spelling, so that no two operators of a table are
spelled alike. No operator between operands is spelled like one of the other tables,
and operators before their operand that are spelled like names are keywords.
-/

namespace Scriptlet

namespace ArithOp

theorem mem_all (op : ArithOp) : op ∈ all := by
  cases op <;> simp [all]

end ArithOp

namespace BinaryOp

theorem mem_all (op : BinaryOp) : op ∈ all := by
  cases op with
  | arith op => simp [all, ArithOp.mem_all op]
  | rel op => cases op <;> simp [all, RelOp.all]
  | assign op =>
      cases op with
      | none => simp [all, assignments]
      | some op => simp [all, assignments, ArithOp.mem_all op]
  | _ => simp [all]

/-- The spellings that only operators of other tables have. -/
def others : List String := ["++", "--", ".", "?.", "[", "->", "?", ":", ",", "new"]

theorem all_consistent :
    ∀ op ∈ all, ofSymbol? op.symbol = some op ∧ op.symbol ∉ others := by
  decide +kernel

theorem ofSymbol?_symbol (op : BinaryOp) : ofSymbol? op.symbol = some op :=
  (all_consistent op op.mem_all).1

theorem symbol_not_mem_others (op : BinaryOp) : op.symbol ∉ others :=
  (all_consistent op op.mem_all).2

theorem symbol_inj {op op' : BinaryOp} (same : op.symbol = op'.symbol) : op = op' := by
  have found := ofSymbol?_symbol op
  rw [same, ofSymbol?_symbol op'] at found
  exact (Option.some.inj found).symm

end BinaryOp

namespace PrefixOp

theorem mem_all (op : PrefixOp) : op ∈ all := by
  cases op with
  | step op => cases op <;> simp [all, steps, Step.all]
  | _ => simp [all, unary]

theorem ofSymbol?_symbol (op : PrefixOp) : ofSymbol? op.symbol = some op := by
  rcases op with op | _ | _ | _ | _ | _ | _ | _ | _ <;> (try cases op) <;> decide

theorem symbol_inj {op op' : PrefixOp} (same : op.symbol = op'.symbol) : op = op' := by
  have found := ofSymbol?_symbol op
  rw [same, ofSymbol?_symbol op'] at found
  exact (Option.some.inj found).symm

theorem isKeyword_symbol (op : PrefixOp)
    (starts : op.symbol.toList.head?.any CharClass.startsSymbol = true) :
    isKeyword op.symbol = true := by
  revert starts
  rcases op with op | _ | _ | _ | _ | _ | _ | _ | _ <;> (try cases op) <;> decide

end PrefixOp

namespace AccessOp

theorem ofSymbol?_symbol (op : AccessOp) : ofSymbol? op.symbol = some op := by
  cases op <;> decide

theorem symbol_of_ofSymbol? {text : String} {op : AccessOp} (h : ofSymbol? text = some op) :
    text = op.symbol := by
  have found := List.find?_some h
  exact (beq_iff_eq.mp found).symm

end AccessOp

namespace Step

theorem ofSymbol?_symbol (op : Step) : ofSymbol? op.symbol = some op := by
  cases op <;> decide

theorem symbol_of_ofSymbol? {text : String} {op : Step} (h : ofSymbol? text = some op) :
    text = op.symbol := by
  have found := List.find?_some h
  exact (beq_iff_eq.mp found).symm

end Step

end Scriptlet
