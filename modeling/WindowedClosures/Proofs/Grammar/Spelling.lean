import WindowedClosures.Proofs.Grammar.Readers

/-!
# The expressions that tokens spell

`Spells` says of a run of tokens which part of a program it is: it follows the grammar, but leaves
open how tightly operators bind.
-/

namespace WindowedClosures

/-- A part of a program, with what it denotes. -/
inductive Phrase where
  | primary (e : Expr)
  | suffixed (e : Expr)
  | operand (e : Expr)
  | operators (e : Expr)
  | expression (e : Expr)
  | statement (e : Expr)
  | statements (body : List Expr)
  | field (field : Labelled Expr)
  | fields (fields : List (Labelled Expr))

/-- The expressions that a part of a program holds. -/
def Phrase.exprs : Phrase → List Expr
  | .primary e => [e]
  | .suffixed e => [e]
  | .operand e => [e]
  | .operators e => [e]
  | .expression e => [e]
  | .statement e => [e]
  | .statements body => body
  | .field f => [f.value]
  | .fields fs => fs.map (·.value)

/-- The tokens are this part of a program. The bodies of literals stand in the tree. -/
inductive Spells (tree : ScopeTree) : List Token → Phrase → Prop
  | int {value : Int32} {span : Span} {line : Nat} :
      Spells tree [.leaf (.int value) span line] (.primary (.int value span))
  | hex {value : UInt32} {span : Span} {line : Nat} :
      Spells tree [.leaf (.hex value) span line] (.primary (.hex value span))
  | float {value : Binary32} {span : Span} {line : Nat} :
      Spells tree [.leaf (.float value) span line] (.primary (.float value span))
  | text {value : String} {span : Span} {line : Nat} :
      Spells tree [.leaf (.text value) span line] (.primary (.text value span))
  | name {value : String} {span : Span} {line : Nat} :
      Spells tree [.leaf (.name value) span line] (.primary (.name value span))
  | unit {span : Span} {line : Nat} :
      Spells tree [.group .paren [] span line] (.primary (.tuple [] span))
  | tuple {children : List Token} {fields : List (Labelled Expr)} {span : Span} {line : Nat} :
      Spells tree children (.fields fields) →
      Spells tree [.group .paren children span line] (.primary (.tuple fields span))
  /-- A literal with a block, whose labels stand in front of the sign. -/
  | block {head children : List Token} {labels : List String} {body : List Expr} {id : ScopeId}
      {here there : Span} {line line' : Nat} :
      Spells tree children (.statements body) → id < tree.count →
      tree.scope id = .fresh .literal labels body (here.merge there) →
      Spells tree (.leaf (.symbol .backslash) here line ::
          (head ++ [.group .brace children there line']))
        (.primary (.function ⟨0, labels, id⟩ (here.merge there)))
  /-- A literal with one expression. -/
  | lambda {head run : List Token} {labels : List String} {e : Expr} {id : ScopeId} {here : Span}
      {line : Nat} : Spells tree run (.expression e) → id < tree.count →
      tree.scope id = .fresh .literal labels [e] (here.merge e.span) →
      Spells tree (.leaf (.symbol .backslash) here line :: (head ++ run))
        (.primary (.function ⟨0, labels, id⟩ (here.merge e.span)))
  | ofPrimary {run : List Token} {e : Expr} :
      Spells tree run (.primary e) → Spells tree run (.suffixed e)
  | call {run : List Token} {t : Token} {e : Expr} {fields : List (Labelled Expr)} {span : Span} :
      Spells tree run (.suffixed e) → Spells tree [t] (.primary (.tuple fields span)) →
      Spells tree (run ++ [t]) (.suffixed (.ofOperands .call e (.tuple fields span)))
  | access {run : List Token} {e : Expr} {name : String} {here there : Span} {line line' : Nat} :
      Spells tree run (.suffixed e) →
      Spells tree (run ++ [.leaf (.symbol .dot) here line, .leaf (.name name) there line'])
        (.suffixed (.ofOperands .field e (.name name there)))
  | index {run inner : List Token} {e position : Expr} {here there : Span} {line line' : Nat} :
      Spells tree run (.suffixed e) → Spells tree inner (.expression position) →
      Spells tree (run ++ .leaf (.symbol .leftSquare) here line ::
          (inner ++ [.leaf (.symbol .rightSquare) there line']))
        (.suffixed (.binary .index e position (e.span.merge there)))
  | ofSuffixed {run : List Token} {e : Expr} :
      Spells tree run (.suffixed e) → Spells tree run (.operand e)
  | unary {run : List Token} {symbol : Symbol} {op : UnaryOp} {e : Expr} {here : Span} {line : Nat} :
      Grammar.unary? symbol = some op → Spells tree run (.operand e) →
      Spells tree (.leaf (.symbol symbol) here line :: run)
        (.operand (.unary op e (here.merge e.span)))
  | ofOperand {run : List Token} {e : Expr} :
      Spells tree run (.operand e) → Spells tree run (.operators e)
  | operator {run rest : List Token} {symbol : Symbol} {b : Grammar.Binding} {lhs rhs : Expr}
      {here : Span} {line : Nat} : Grammar.binding? symbol = some b →
      Spells tree run (.operators lhs) → Spells tree rest (.operators rhs) →
      Spells tree (run ++ .leaf (.symbol symbol) here line :: rest)
        (.operators (.ofOperands b.op lhs rhs))
  | ofOperators {run : List Token} {e : Expr} :
      Spells tree run (.operators e) → Spells tree run (.expression e)
  | assign {run : List Token} {e : Expr} {name : String} {here there : Span} {line line' : Nat} :
      Spells tree run (.expression e) →
      Spells tree (.leaf (.name name) here line :: .leaf (.symbol .equal) there line' :: run)
        (.expression (.ofOperands .assign (.name name here) e))
  | ofExpression {run : List Token} {e : Expr} :
      Spells tree run (.expression e) → Spells tree run (.statement e)
  | varDecl {types run : List Token} {declared : String} {type : TypeExpr} {e : Expr}
      {here named colon equal : Span} {line line₁ line₂ line₃ : Nat} :
      TypeSpells types (.type type) → Spells tree run (.expression e) →
      Spells tree (.leaf (.symbol .leftSquare) here line :: .leaf (.name declared) named line₁ ::
          .leaf (.symbol .colon) colon line₂ ::
            (types ++ .leaf (.symbol .equal) equal line₃ :: run))
        (.statement (.varDecl declared type e (here.merge e.span)))
  | typeDecl {types : List Token} {declared : String} {type : TypeExpr} {here named equal : Span}
      {line line₁ line₂ : Nat} : TypeSpells types (.type type) →
      Spells tree (.leaf (.symbol .colon) here line :: .leaf (.name declared) named line₁ ::
          .leaf (.symbol .equal) equal line₂ :: types)
        (.statement (.typeDecl declared type (here.merge type.span)))
  | noStatement : Spells tree [] (.statements [])
  | lastStatement {run : List Token} {e : Expr} :
      Spells tree run (.statement e) → Spells tree run (.statements [e])
  | moreStatements {run rest : List Token} {e : Expr} {body : List Expr} {here : Span} {line : Nat} :
      Spells tree run (.statement e) → Spells tree rest (.statements body) →
      Spells tree (run ++ .leaf (.symbol .semicolon) here line :: rest) (.statements (e :: body))
  | plainField {run : List Token} {e : Expr} :
      Spells tree run (.expression e) → Spells tree run (.field ⟨none, e⟩)
  | labelledField {run : List Token} {e : Expr} {label : String} {here there : Span}
      {line line' : Nat} : Spells tree run (.expression e) →
      Spells tree (.leaf (.name label) here line :: .leaf (.symbol .colon) there line' :: run)
        (.field ⟨some label, e⟩)
  | lastField {run : List Token} {field : Labelled Expr} :
      Spells tree run (.field field) → Spells tree run (.fields [field])
  | moreFields {run rest : List Token} {field : Labelled Expr} {fields : List (Labelled Expr)}
      {here : Span} {line : Nat} :
      Spells tree run (.field field) → Spells tree rest (.fields fields) →
      Spells tree (run ++ .leaf (.symbol .comma) here line :: rest) (.fields (field :: fields))

/-- Of the tree only the bodies of literals matter. -/
theorem Spells.congr {before after : ScopeTree} (count : before.count ≤ after.count)
    (keeps : ∀ id : Nat, id < before.count → (before.scope id).origin = .literal →
      after.scope id = before.scope id) {tokens : List Token} {phrase : Phrase}
    (h : Spells before tokens phrase) : Spells after tokens phrase := by
  induction h with
  | block _ lt scope ih =>
    exact .block ih (Nat.lt_of_lt_of_le lt count) ((keeps _ lt (by rw [scope]; rfl)).trans scope)
  | lambda _ lt scope ih =>
    exact .lambda ih (Nat.lt_of_lt_of_le lt count) ((keeps _ lt (by rw [scope]; rfl)).trans scope)
  | int => exact .int
  | hex => exact .hex
  | float => exact .float
  | text => exact .text
  | name => exact .name
  | unit => exact .unit
  | tuple _ ih => exact .tuple ih
  | ofPrimary _ ih => exact .ofPrimary ih
  | call _ _ ih ih' => exact .call ih ih'
  | access _ ih => exact .access ih
  | index _ _ ih ih' => exact .index ih ih'
  | ofSuffixed _ ih => exact .ofSuffixed ih
  | unary op _ ih => exact .unary op ih
  | ofOperand _ ih => exact .ofOperand ih
  | operator op _ _ ih ih' => exact .operator op ih ih'
  | ofOperators _ ih => exact .ofOperators ih
  | assign _ ih => exact .assign ih
  | ofExpression _ ih => exact .ofExpression ih
  | varDecl type _ ih => exact .varDecl type ih
  | typeDecl type => exact .typeDecl type
  | noStatement => exact .noStatement
  | lastStatement _ ih => exact .lastStatement ih
  | moreStatements _ _ ih ih' => exact .moreStatements ih ih'
  | plainField _ ih => exact .plainField ih
  | labelledField _ ih => exact .labelledField ih
  | lastField _ ih => exact .lastField ih
  | moreFields _ _ ih ih' => exact .moreFields ih ih'

theorem Spells.grows {before after : ScopeTree} (grows : before.Grows after) {tokens : List Token}
    {phrase : Phrase} (h : Spells before tokens phrase) : Spells after tokens phrase :=
  h.congr grows.count fun id lt _ => grows.keeps id lt

end WindowedClosures
