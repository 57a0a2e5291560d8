import WindowedClosures.Proofs.Grammar.Parsing
import WindowedClosures.Proofs.Token.Drawing

/-!
# Expressions as they are printed

What the printed text of an expression is in tokens, if the expression is one that tokens can spell
and has neither a function literal nor a field of a bare decimal number. An operator is printed in
parentheses, so the text shows how the expression is put together.
-/

namespace WindowedClosures

/-! ## Types -/

/-- A field's tokens, with the label and a colon in front if there is one. -/
def Labelled.bare (label : Option String) (value : List Bare) : List Bare :=
  match label with
  | some name => .leaf (.name name) :: .leaf (.symbol .colon) :: value
  | none => value

namespace TypeExpr

mutual

/-- The tokens of a type as it is printed. -/
def bare : TypeExpr → List Bare
  | .named name _ => [.leaf (.name name)]
  | .array elem count _ => elem.bare ++ [.leaf (.int (Int32.ofNat count))]
  | .function input output _ =>
    (if input.isFunction then [.group .paren input.bare] else input.bare) ++
      .leaf (.symbol .greater) :: output.bare
  | .pointer inner _ => inner.bare ++ [.leaf (.symbol .star)]
  | .tuple fields _ => [.group .paren (commas (bareFields fields))]

def bareFields : List (Labelled TypeExpr) → List (List Bare)
  | [] => []
  | ⟨label, value⟩ :: rest => Labelled.bare label value.bare :: bareFields rest

end

/-- A type that tokens can spell. -/
inductive Printable : TypeExpr → Prop
  | named {name : String} {span : Span} : IsName name → Printable (.named name span)
  | array {name : String} {count : Nat} {here span : Span} : IsName name → count < 0x80000000 →
      Printable (.array (.named name here) count span)
  | function {input output : TypeExpr} {span : Span} : Printable input → input.isFunction = false →
      Printable output → Printable (.function input output span)
  | pointer {inner : TypeExpr} {span : Span} : Printable inner → inner.isFunction = false →
      Printable (.pointer inner span)
  | tuple {fields : List (Labelled TypeExpr)} {span : Span} :
      (∀ f ∈ fields, ∀ label ∈ f.label, IsName label) → (∀ f ∈ fields, Printable f.value) →
      Printable (.tuple fields span)

theorem renderFields_eq (fields : List (Labelled TypeExpr)) :
    renderFields fields = fields.map fun f => Labelled.render f.label f.value.render := by
  induction fields with
  | nil => rfl
  | cons f rest ih => simp [renderFields, ih]

theorem bareFields_eq (fields : List (Labelled TypeExpr)) :
    bareFields fields = fields.map fun f => Labelled.bare f.label f.value.bare := by
  induction fields with
  | nil => rfl
  | cons f rest ih => simp [bareFields, ih]

end TypeExpr

/-- A field is printed as its label, a colon and its value. -/
theorem Draws.field {ends : Char → Prop} {label : Option String} {value : String} {bs : List Bare}
    (names : ∀ name ∈ label, IsName name) (h : Draws ends value.toList bs) :
    Draws ends (Labelled.render label value).toList (Labelled.bare label bs) := by
  cases label with
  | none => exact h
  | some name =>
    have colon : Draws anyChar [':'] [.leaf (.symbol .colon)] :=
      .mark ':' rfl rfl (by decide) fun _ _ _ _ => rfl
    have front := (Draws.name (names name rfl)).followed (by decide +kernel) (colon.spaced trivial)
    have whole := front.append h fun _ _ => trivial
    simpa [Labelled.render, Labelled.bare] using whole

/-- Fields between parentheses. -/
theorem Draws.tuple {α : Type} {ends : Char → Prop} (comma : ends ',') (closes : ends ')')
    {text : α → String} {run : α → List Bare} {items : List α}
    (h : ∀ x ∈ items, Draws ends (text x).toList (run x)) :
    Draws anyChar (Labelled.renderTuple (items.map text)).toList
      [.group .paren (commas (items.map run))] := by
  by_cases empty : items = []
  · subst empty
    simpa [Labelled.renderTuple, commas] using Draws.unit
  · have inner := (Draws.join comma h empty).parens closes
    have written : (Labelled.renderTuple (items.map text)).toList =
        '(' :: (List.intercalate [',', ' '] (items.map fun x => (text x).toList) ++ [')']) := by
      simp [Labelled.renderTuple, String.toList_intercalate, Function.comp_def]
    rwa [written]

theorem TypeExpr.Printable.draws {t : TypeExpr} (h : t.Printable) :
    Draws breaksNumber t.render.toList t.bare := by
  induction h with
  | named name => exact (Draws.name name).mono fun _ h => h.1
  | @array name count here span named small =>
    have blank := (Draws.decimal small).blank
    have whole := (Draws.name named).followed (by decide +kernel) blank
    simpa [TypeExpr.render, TypeExpr.bare] using whole
  | function _ simple _ ih ih' =>
    have arrow : Draws anyChar [' ', '>', ' '] [.leaf (.symbol .greater)] := .sign rfl (.single rfl)
    have whole := (ih.followed (by decide +kernel) arrow).append ih' fun _ _ => trivial
    simpa [TypeExpr.render, TypeExpr.bare, simple] using whole
  | pointer _ _ ih =>
    have star : Draws breaksNumber ['*'] [.leaf (.symbol .star)] :=
      .mark '*' rfl rfl (by decide) fun _ _ _ _ => rfl
    have whole := ih.followed (by decide +kernel) star.blank
    simpa [TypeExpr.render, TypeExpr.bare] using whole
  | @tuple fields span names _ ih =>
    rw [TypeExpr.render, TypeExpr.bare, renderFields_eq, bareFields_eq]
    have fields := Draws.tuple (by decide +kernel : breaksNumber ',') (by decide +kernel)
      fun f hf => .field (names f hf) (ih f hf)
    exact fields.mono fun _ _ => trivial

/-! ## Operators -/

/-- The symbol of an operator, or the one that it starts with. -/
def BinaryOp.sign : BinaryOp → Symbol
  | .arithmetic .add => .plus
  | .arithmetic .sub => .minus
  | .arithmetic .mul => .star
  | .arithmetic .div => .slash
  | .arithmetic .mod => .percent
  | .comparison .eq => .equalEqual
  | .comparison .ne => .bangEqual
  | .comparison .gt => .greater
  | .comparison .ge => .greaterEqual
  | .comparison .lt => .less
  | .comparison .le => .lessEqual
  | .connective .and => .ampersand
  | .connective .or => .bar
  | .assign => .equal
  | .apply => .hash
  | .compose => .bullet
  | .choose => .question
  | .call => .opening .paren
  | .field => .dot
  | .index => .leftSquare

def UnaryOp.sign : UnaryOp → Symbol
  | .neg => .minus
  | .not => .bang
  | .deref => .star
  | .ref => .ampersand

/-- An operator that is written between its operands. -/
def BinaryOp.standsBetween : BinaryOp → Bool
  | .assign | .call | .field | .index => false
  | _ => true

/-- What stands between operands binds them with its operator. -/
theorem binding?_eq {symbol : Symbol} {b : Grammar.Binding} (h : Grammar.binding? symbol = some b) :
    b.op.standsBetween ∧ b.op.sign = symbol := by
  unfold Grammar.binding? at h
  split at h <;> cases h <;> exact ⟨rfl, rfl⟩

theorem binding?_sign {op : BinaryOp} (h : op.standsBetween) : ∃ b, Grammar.binding? op.sign = some b ∧
    b.op = op ∧ 1 ≤ b.power := by
  cases op with
  | arithmetic op | comparison op | connective op => cases op <;> exact ⟨_, rfl, rfl, by decide⟩
  | apply | compose | choose => exact ⟨_, rfl, rfl, by decide⟩
  | _ => cases h

theorem unary?_sign (op : UnaryOp) : Grammar.unary? op.sign = some op := by
  cases op <;> rfl

theorem BinaryOp.written_sign {op : BinaryOp} (h : op.standsBetween) : op.sign.Written op.render.toList := by
  cases op with
  | arithmetic op => cases op <;> exact .single rfl
  | comparison op =>
    cases op with
    | gt | lt => exact .single rfl
    | _ => exact .pair rfl rfl rfl
  | connective op => cases op <;> exact .single rfl
  | apply | compose | choose => exact .single rfl
  | _ => cases h

theorem BinaryOp.isSign_sign {op : BinaryOp} (h : op.standsBetween) : op.sign.isSign := by
  cases op with
  | arithmetic op | comparison op | connective op => cases op <;> rfl
  | call => cases h
  | _ => rfl

/-- A sign in front of an operand, which does not start with an equal sign. -/
theorem Draws.unary {ends : Char → Prop} {text : List Char} {bs : List Bare} (op : UnaryOp)
    (h : Draws ends text bs) : Draws ends (op.render.toList ++ text) (.leaf (.symbol op.sign) :: bs) := by
  obtain ⟨c, rest, rfl, ne⟩ := h.start
  have sign : Draws (· ≠ '=') op.render.toList [.leaf (.symbol op.sign)] := by
    have apart (d : Char) (hd : d ≠ '=') (next : Symbol) (found : Symbol.ofChar? d = some next) :
        next ≠ .equal := by
      rintro rfl
      unfold Symbol.ofChar? at found
      split at found <;> cases found
      exact hd rfl
    cases op with
    | neg => exact .mark '-' rfl rfl (by decide) fun _ _ _ _ => rfl
    | deref => exact .mark '*' rfl rfl (by decide) fun _ _ _ _ => rfl
    | ref => exact .mark '&' rfl rfl (by decide) fun _ _ _ _ => rfl
    | not =>
      refine .mark '!' rfl rfl (by decide) fun d hd next found => ?_
      have other := apart d hd next found
      cases next <;> first | rfl | exact absurd rfl other
  exact sign.followed ne h

/-! ## Expressions -/

namespace Expr

/-- How far an expression can be taken apart: an operand without signs, one with signs, an
assignment, a declaration. -/
def level : Expr → Nat
  | .typeDecl .. | .varDecl .. => 3
  | .binary .assign .. => 2
  | .unary .. => 1
  | _ => 0

/-- A decimal number, which a point behind it would make another number. -/
def isDecimal : Expr → Bool
  | .int .. => true
  | _ => false

mutual

/-- The tokens of an expression as it is printed, function literals apart. -/
def bare : Expr → List Bare
  | .int value _ => [.leaf (.int value)]
  | .hex value _ => [.leaf (.hex value)]
  | .float value _ => [.leaf (.float value)]
  | .text value _ => [.leaf (.text value)]
  | .name value _ => [.leaf (.name value)]
  | .tuple fields _ => [.group .paren (commas (bareFields fields))]
  | .typeDecl declared type _ =>
    .leaf (.symbol .colon) :: .leaf (.name declared) :: .leaf (.symbol .equal) :: type.bare
  | .varDecl declared type value _ =>
    .leaf (.symbol .leftSquare) :: .leaf (.name declared) :: .leaf (.symbol .colon) ::
      (type.bare ++ .leaf (.symbol .equal) :: value.bare)
  | .function _ _ => []
  | .binary op lhs rhs _ =>
    match op with
    | .call => lhs.bare ++ rhs.bare
    | .field => lhs.bare ++ .leaf (.symbol .dot) :: rhs.bare
    | .index => lhs.bare ++ .leaf (.symbol .leftSquare) :: (rhs.bare ++ [.leaf (.symbol .rightSquare)])
    | .assign => lhs.bare ++ .leaf (.symbol .equal) :: rhs.bare
    | op => [.group .paren (lhs.bare ++ .leaf (.symbol op.sign) :: rhs.bare)]
  | .unary op operand _ => .leaf (.symbol op.sign) :: operand.bare

def bareFields : List (Labelled Expr) → List (List Bare)
  | [] => []
  | ⟨label, value⟩ :: rest => Labelled.bare label value.bare :: bareFields rest

end

/-- An expression that tokens can spell, without function literals and without a field of a bare
decimal number. -/
inductive Printable : Expr → Prop
  | int {value : Int32} {span : Span} : 0 ≤ value.toInt → Printable (.int value span)
  | hex {value : UInt32} {span : Span} : Printable (.hex value span)
  | text {value : String} {span : Span} : '"' ∉ value.toList → Printable (.text value span)
  | name {value : String} {span : Span} : IsName value → Printable (.name value span)
  | tuple {fields : List (Labelled Expr)} {span : Span} :
      (∀ f ∈ fields, ∀ label ∈ f.label, IsName label) → (∀ f ∈ fields, f.value.level ≤ 2) →
      (∀ f ∈ fields, Printable f.value) → Printable (.tuple fields span)
  | call {f : Expr} {args : List (Labelled Expr)} {here span : Span} : Printable f → f.level = 0 →
      Printable (.tuple args here) → Printable (.binary .call f (.tuple args here) span)
  | access {e : Expr} {value : String} {here span : Span} : Printable e → e.level = 0 →
      e.isDecimal = false → IsName value → Printable (.binary .field e (.name value here) span)
  | index {e position : Expr} {span : Span} : Printable e → e.level = 0 → Printable position →
      position.level ≤ 2 → Printable (.binary .index e position span)
  | operation {op : BinaryOp} {lhs rhs : Expr} {span : Span} : op.standsBetween → Printable lhs →
      lhs.level ≤ 1 → Printable rhs → rhs.level ≤ 1 → Printable (.binary op lhs rhs span)
  | unary {op : UnaryOp} {e : Expr} {span : Span} : Printable e → e.level ≤ 1 →
      Printable (.unary op e span)
  | assign {value : String} {e : Expr} {here span : Span} : IsName value → Printable e →
      e.level ≤ 2 → Printable (.binary .assign (.name value here) e span)
  | varDecl {declared : String} {type : TypeExpr} {e : Expr} {span : Span} : IsName declared →
      type.Printable → Printable e → e.level ≤ 2 → Printable (.varDecl declared type e span)
  | typeDecl {declared : String} {type : TypeExpr} {span : Span} : IsName declared →
      type.Printable → Printable (.typeDecl declared type span)

theorem renderFields_eq (fields : List (Labelled Expr)) :
    renderFields fields = fields.map fun f => Labelled.render f.label f.value.render := by
  induction fields with
  | nil => rfl
  | cons f rest ih => simp [renderFields, ih]

theorem bareFields_eq (fields : List (Labelled Expr)) :
    bareFields fields = fields.map fun f => Labelled.bare f.label f.value.bare := by
  induction fields with
  | nil => rfl
  | cons f rest ih => simp [bareFields, ih]

/-- What may follow an expression: no point behind a number. -/
def ends (e : Expr) (c : Char) : Prop :=
  isNameChar c = false ∧ (c = '.' → e.level = 0 ∧ e.isDecimal = false)

end Expr

theorem Expr.ends_of_breaksNumber {e : Expr} {c : Char} (h : breaksNumber c) : e.ends c :=
  ⟨h.1, fun eq => absurd eq h.2⟩

theorem Expr.breaksNumber_of_ends {e : Expr} {c : Char} (level : e.level ≠ 0) (h : e.ends c) :
    breaksNumber c :=
  ⟨h.1, fun eq => level (h.2 eq).1⟩

theorem Draws.level {e e' : Expr} {text : List Char} {bs : List Bare} (h : Draws e.ends text bs)
    (level : e'.level ≠ 0) : Draws e'.ends text bs :=
  h.mono fun _ hc => Expr.ends_of_breaksNumber (Expr.breaksNumber_of_ends level hc)

theorem Expr.render_operation {op : BinaryOp} (h : op.standsBetween) (lhs rhs : Expr) (span : Span) :
    (Expr.binary op lhs rhs span).render =
      "(" ++ lhs.render ++ " " ++ op.render ++ " " ++ rhs.render ++ ")" := by
  cases op with
  | assign | call | field | index => cases h
  | _ => rfl

theorem Expr.bare_operation {op : BinaryOp} (h : op.standsBetween) (lhs rhs : Expr) (span : Span) :
    (Expr.binary op lhs rhs span).bare =
      [.group .paren (lhs.bare ++ .leaf (.symbol op.sign) :: rhs.bare)] := by
  cases op with
  | assign | call | field | index => cases h
  | _ => rfl

theorem Expr.level_operation {op : BinaryOp} (h : op.standsBetween) (lhs rhs : Expr) (span : Span) :
    (Expr.binary op lhs rhs span).level = 0 := by
  cases op with
  | assign => cases h
  | _ => rfl

theorem Draws.integer {value : Int32} (h : 0 ≤ value.toInt) :
    Draws breaksNumber (toString value.toInt).toList [.leaf (.int value)] := by
  obtain ⟨n, small, rfl, text⟩ := exists_natural h
  rw [text]
  exact .decimal small

theorem Draws.equal : Draws anyChar [' ', '=', ' '] [.leaf (.symbol .equal)] := .sign rfl (.single rfl)

/-- The printed text of an expression has the tokens of the expression. -/
theorem Expr.Printable.draws {e : Expr} (h : e.Printable) : Draws e.ends e.render.toList e.bare := by
  have colon : Draws anyChar [':'] [.leaf (.symbol .colon)] :=
    .mark ':' rfl rfl (by decide) fun _ _ _ _ => rfl
  have leftSquare : Draws anyChar ['['] [.leaf (.symbol .leftSquare)] :=
    .mark '[' rfl rfl (by decide) fun _ _ _ _ => rfl
  induction h with
  | int nonneg => exact (Draws.integer nonneg).mono fun c h => ⟨h.1, fun eq => by cases (h.2 eq).2⟩
  | @hex value span => exact (Draws.hex value).mono fun _ h => h.1
  | text plain => exact (Draws.text plain).mono fun _ _ => trivial
  | name named => exact (Draws.name named).mono fun _ h => h.1
  | @tuple fields span names _ _ ih =>
    rw [Expr.render, Expr.bare, renderFields_eq, bareFields_eq]
    have parts : ∀ f ∈ fields, Draws breaksNumber f.value.render.toList f.value.bare :=
      fun f hf => (ih f hf).mono fun _ => ends_of_breaksNumber
    have fields := Draws.tuple (by decide +kernel : breaksNumber ',') (by decide +kernel)
      fun f hf => .field (names f hf) (parts f hf)
    exact fields.mono fun _ _ => trivial
  | @call f args here span _ tight _ ih ih' =>
    have opens : ∀ c ∈ (Expr.tuple args here).render.toList.head?, f.ends c := by
      intro c hc
      simp only [Expr.render, Labelled.renderTuple, String.toList_append] at hc
      cases hc
      exact ends_of_breaksNumber (by decide +kernel)
    have whole : Draws (Expr.binary .call f (.tuple args here) span).ends _ _ :=
      (ih.append ih' opens).mono fun c h => ⟨h.1, fun _ => ⟨rfl, rfl⟩⟩
    simpa [Expr.render, Expr.bare] using whole
  | @access e value here span _ tight integral named ih =>
    have dot : Draws anyChar ['.'] [.leaf (.symbol .dot)] :=
      .mark '.' rfl rfl (by decide) fun _ _ _ _ => rfl
    have field := dot.append (Draws.name named) fun _ _ => trivial
    have whole : Draws (Expr.binary .field e (.name value here) span).ends _ _ :=
      (ih.followed ⟨by decide +kernel, fun _ => ⟨tight, integral⟩⟩ field).mono fun _ h => h.1
    simpa [Expr.render, Expr.bare] using whole
  | @index e position span _ tight _ _ ih ih' =>
    have rightSquare : Draws anyChar [']'] [.leaf (.symbol .rightSquare)] :=
      .mark ']' rfl rfl (by decide) fun _ _ _ _ => rfl
    have inner := leftSquare.append (ih'.followed (ends_of_breaksNumber (by decide +kernel)) rightSquare)
      fun _ _ => trivial
    have whole : Draws (Expr.binary .index e position span).ends _ _ :=
      (ih.followed (ends_of_breaksNumber (by decide +kernel)) inner).mono fun _ _ => trivial
    simpa [Expr.render, Expr.bare] using whole
  | @operation op lhs rhs span between _ _ _ _ ih ih' =>
    have sign := Draws.sign (BinaryOp.isSign_sign between) (BinaryOp.written_sign between)
    have inner := (ih.followed (ends_of_breaksNumber (by decide +kernel)) sign).append ih'
      fun _ _ => trivial
    have whole : Draws (Expr.binary op lhs rhs span).ends _ _ :=
      (inner.parens (ends_of_breaksNumber (by decide +kernel))).mono fun _ _ => trivial
    rw [render_operation between, bare_operation between]
    simpa using whole
  | @unary op e span _ _ ih =>
    have whole : Draws (Expr.unary op e span).ends _ _ := (ih.unary op).level nofun
    simpa [Expr.render, Expr.bare] using whole
  | @assign value e here span named _ _ ih =>
    have front := (Draws.name named).followed (by decide +kernel) Draws.equal
    have whole : Draws (Expr.binary .assign (.name value here) e span).ends _ _ :=
      (front.append ih fun _ _ => trivial).level nofun
    simpa [Expr.render, Expr.bare] using whole
  | @varDecl declared type e span named typed _ _ ih =>
    have front := (leftSquare.spaced trivial).append (Draws.name named) fun _ _ => trivial
    have label := front.followed (by decide +kernel) (colon.spaced trivial)
    have annotated := (label.append typed.draws fun _ _ => trivial).followed (by decide +kernel) .equal
    have whole : Draws (Expr.varDecl declared type e span).ends _ _ :=
      (annotated.append ih fun _ _ => trivial).level nofun
    simpa [Expr.render, Expr.bare] using whole
  | @typeDecl declared type span named typed =>
    have front := (colon.spaced trivial).append (Draws.name named) fun _ _ => trivial
    have whole : Draws (Expr.typeDecl declared type span).ends _ _ :=
      ((front.followed (by decide +kernel) .equal).append typed.draws fun _ _ => trivial).mono
        fun c h => breaksNumber_of_ends (by simp [Expr.level]) h
    simpa [Expr.render, Expr.bare] using whole

end WindowedClosures
