import WindowedClosures.Expr.Basic

/-!
# The nodes of an expression

An expression and everything inside it, the bodies of function literals apart. A body is no part of
an expression: it stands in a scope of its own. A written type has nodes as well.
-/

namespace WindowedClosures

namespace TypeExpr

mutual

/-- A written type and all types inside it. -/
def nodes : TypeExpr → List TypeExpr
  | .named name span => [.named name span]
  | .array elem count span => .array elem count span :: elem.nodes
  | .function input output span => .function input output span :: (input.nodes ++ output.nodes)
  | .pointer inner span => .pointer inner span :: inner.nodes
  | .tuple fields span => .tuple fields span :: nodesOfFields fields

def nodesOfFields : List (Labelled TypeExpr) → List TypeExpr
  | [] => []
  | ⟨_, value⟩ :: rest => value.nodes ++ nodesOfFields rest

end

theorem mem_nodes_self (t : TypeExpr) : t ∈ t.nodes := by
  cases t <;> simp [nodes]

theorem nodesOfFields_eq (fields : List (Labelled TypeExpr)) :
    nodesOfFields fields = fields.flatMap (·.value.nodes) := by
  induction fields with
  | nil => rfl
  | cons first rest ih => simp [nodesOfFields, ih]

/-- The types directly inside a type. -/
def parts : TypeExpr → List TypeExpr
  | .named .. => []
  | .array elem _ _ => [elem]
  | .function input output _ => [input, output]
  | .pointer inner _ => [inner]
  | .tuple fields _ => fields.map (·.value)

theorem nodes_eq (t : TypeExpr) : t.nodes = t :: t.parts.flatMap nodes := by
  cases t with
  | tuple fields span => simp [nodes, parts, nodesOfFields_eq, List.flatMap_map]
  | _ => simp [nodes, parts]

end TypeExpr

namespace Expr

mutual

/-- An expression and all expressions inside it. -/
def nodes : Expr → List Expr
  | .tuple fields span => .tuple fields span :: nodesOfFields fields
  | .varDecl declared type value span => .varDecl declared type value span :: value.nodes
  | .binary op lhs rhs span => .binary op lhs rhs span :: (lhs.nodes ++ rhs.nodes)
  | .unary op operand span => .unary op operand span :: operand.nodes
  | .int value span => [.int value span]
  | .hex value span => [.hex value span]
  | .float value span => [.float value span]
  | .text value span => [.text value span]
  | .name value span => [.name value span]
  | .typeDecl declared type span => [.typeDecl declared type span]
  | .function literal span => [.function literal span]

def nodesOfFields : List (Labelled Expr) → List Expr
  | [] => []
  | ⟨_, value⟩ :: rest => value.nodes ++ nodesOfFields rest

end

theorem mem_nodes_self (e : Expr) : e ∈ e.nodes := by
  cases e <;> simp [nodes]

theorem nodesOfFields_eq (fields : List (Labelled Expr)) :
    nodesOfFields fields = fields.flatMap (·.value.nodes) := by
  induction fields with
  | nil => rfl
  | cons first rest ih => simp [nodesOfFields, ih]

/-- The expressions directly inside an expression. -/
def parts : Expr → List Expr
  | .tuple fields _ => fields.map (·.value)
  | .varDecl _ _ value _ => [value]
  | .binary _ lhs rhs _ => [lhs, rhs]
  | .unary _ operand _ => [operand]
  | _ => []

/-- The expression with its parts taken out. -/
def shell : Expr → Expr
  | .tuple fields span => .tuple (fields.map fun f => ⟨f.label, default⟩) span
  | .varDecl declared type _ span => .varDecl declared type default span
  | .binary op _ _ span => .binary op default default span
  | .unary op _ span => .unary op default span
  | e => e

theorem nodes_eq (e : Expr) : e.nodes = e :: e.parts.flatMap nodes := by
  cases e with
  | tuple fields span => simp [nodes, parts, nodesOfFields_eq, List.flatMap_map]
  | _ => simp [nodes, parts]

mutual

/-- What holds of an expression as soon as it holds of its parts holds of every expression. -/
theorem of_parts {p : Expr → Prop} (step : ∀ e, (∀ part ∈ e.parts, p part) → p e) : ∀ e, p e
  | .tuple fields span => step _ fun part hp => by
    obtain ⟨field, hf, rfl⟩ := List.mem_map.mp hp
    exact of_fields step fields field hf
  | .varDecl _ _ value _ => step _ (List.forall_mem_singleton.mpr (of_parts step value))
  | .binary _ lhs rhs _ => step _ (List.forall_mem_cons.mpr
      ⟨of_parts step lhs, List.forall_mem_singleton.mpr (of_parts step rhs)⟩)
  | .unary _ operand _ => step _ (List.forall_mem_singleton.mpr (of_parts step operand))
  | .int .. | .hex .. | .float .. | .text .. | .name .. | .typeDecl .. | .function .. =>
    step _ fun _ hp => by cases hp

theorem of_fields {p : Expr → Prop} (step : ∀ e, (∀ part ∈ e.parts, p part) → p e) :
    ∀ fields : List (Labelled Expr), ∀ field ∈ fields, p field.value
  | [], _, h => by cases h
  | ⟨_, value⟩ :: rest, field, h => by
    rcases List.mem_cons.mp h with rfl | h
    · exact of_parts step value
    · exact of_fields step rest field h

end

/-- What is inside a node is inside the expression. -/
theorem nodes_trans {m n : Expr} (inner : m ∈ n.nodes) (e : Expr) (h : n ∈ e.nodes) : m ∈ e.nodes := by
  induction e using of_parts with
  | step e ih =>
    rw [nodes_eq, List.mem_cons] at h
    rcases h with rfl | h
    · exact inner
    · obtain ⟨part, hp, h⟩ := List.mem_flatMap.mp h
      rw [nodes_eq]
      exact List.mem_cons_of_mem _ (List.mem_flatMap.mpr ⟨part, hp, ih part hp h⟩)

/-- The parts of a node are inside the expression. -/
theorem mem_nodes_part {part n e : Expr} (hp : part ∈ n.parts) (hn : n ∈ e.nodes) : part ∈ e.nodes := by
  refine nodes_trans ?_ e hn
  rw [nodes_eq]
  exact List.mem_cons_of_mem _ (List.mem_flatMap.mpr ⟨part, hp, part.mem_nodes_self⟩)

/-- The types written in a node itself. -/
def annotations : Expr → List TypeExpr
  | .varDecl _ type _ _ => [type]
  | .typeDecl _ type _ => [type]
  | _ => []

/-- The places that a node itself has, those of the types written in it included. -/
def places (n : Expr) : List Span := n.span :: n.annotations.flatMap fun t => t.nodes.map (·.span)

theorem places_of_shell {e e' : Expr} (h : e'.shell = e.shell) : e'.places = e.places := by
  have shell (e : Expr) : e.shell.places = e.places := by cases e <;> rfl
  rw [← shell e, ← shell e', h]

/-- What is inside redundant parentheses is inside the expression. -/
theorem nodes_unwrapped {e n : Expr} (h : n ∈ e.unwrapped.nodes) : n ∈ e.nodes := by
  induction e using unwrapped.induct with
  | case1 value span ih =>
    rw [unwrapped_parens] at h
    simp [nodes, nodesOfFields, ih h]
  | case2 e other =>
    rwa [unwrapped] at h
    exact other

/-- A tuple of two fields, as the arms of a choice have to be. -/
def IsPair : Expr → Prop
  | .tuple [_, _] _ => True
  | _ => False

theorem IsPair.eq {e : Expr} (h : e.IsPair) :
    ∃ first second span, e = .tuple [first, second] span := by
  unfold IsPair at h
  split at h
  · exact ⟨_, _, _, rfl⟩
  · cases h

/-- Induction on expressions as the passes take them apart: redundant parentheses are not a tuple, and
a choice that has both arms stands for its condition and the arms. -/
@[elab_as_elim]
theorem of_forms {p : Expr → Prop} (int : ∀ value span, p (.int value span))
    (hex : ∀ value span, p (.hex value span)) (float : ∀ value span, p (.float value span))
    (text : ∀ value span, p (.text value span)) (name : ∀ value span, p (.name value span))
    (typeDecl : ∀ declared type span, p (.typeDecl declared type span))
    (varDecl : ∀ declared type value span, p value → p (.varDecl declared type value span))
    (function : ∀ literal span, p (.function literal span))
    (parens : ∀ value span, p value → p (.tuple [⟨none, value⟩] span))
    (tuple : ∀ fields span, (∀ value, fields ≠ [⟨none, value⟩]) → (∀ field ∈ fields, p field.value) →
      p (.tuple fields span))
    (unary : ∀ op operand span, p operand → p (.unary op operand span))
    (binary : ∀ op lhs rhs span, op ≠ .choose → p lhs → p rhs → p (.binary op lhs rhs span))
    (choose : ∀ cond (yes no : Labelled Expr) armsSpan span, p cond → p yes.value → p no.value →
      p (.binary .choose cond (.tuple [yes, no] armsSpan) span))
    (unpaired : ∀ cond arms span, ¬ arms.IsPair → p (.binary .choose cond arms span)) (e : Expr) :
    p e := by
  -- the arms are two levels down, so it is shown of everything inside
  have inside : ∀ n ∈ e.nodes, p n := by
    induction e using of_parts with
    | step e ih =>
      have parts (part : Expr) (hp : part ∈ e.parts) : p part := ih part hp part part.mem_nodes_self
      intro n hn
      rw [nodes_eq, List.mem_cons] at hn
      rcases hn with rfl | hn
      · cases n with
        | int value span => exact int value span
        | hex value span => exact hex value span
        | float value span => exact float value span
        | text value span => exact text value span
        | name value span => exact name value span
        | typeDecl declared type span => exact typeDecl declared type span
        | varDecl declared type value span =>
          exact varDecl declared type value span (parts value (by simp [Expr.parts]))
        | function literal span => exact function literal span
        | tuple fields span =>
          have values (field : Labelled Expr) (mem : field ∈ fields) : p field.value :=
            parts field.value (List.mem_map_of_mem mem)
          by_cases single : ∃ value, fields = [⟨none, value⟩]
          · obtain ⟨value, rfl⟩ := single
            exact parens value span (values ⟨none, value⟩ (by simp))
          · exact tuple fields span (fun value eq => single ⟨value, eq⟩) values
        | unary op operand span => exact unary op operand span (parts operand (by simp [Expr.parts]))
        | binary op lhs rhs span =>
          have left := parts lhs (by simp [Expr.parts])
          have right := parts rhs (by simp [Expr.parts])
          by_cases chooses : op = .choose
          · subst chooses
            by_cases pair : rhs.IsPair
            · obtain ⟨yes, no, armsSpan, rfl⟩ := pair.eq
              have arm (arm : Labelled Expr) (mem : arm ∈ [yes, no]) : p arm.value :=
                ih (.tuple [yes, no] armsSpan) (by simp [Expr.parts]) arm.value
                  (mem_nodes_part (List.mem_map_of_mem mem) (mem_nodes_self _))
              exact choose lhs yes no armsSpan span left (arm yes (by simp)) (arm no (by simp))
            · exact unpaired lhs rhs span pair
          · exact binary op lhs rhs span chooses left right
      · obtain ⟨part, hp, hn⟩ := List.mem_flatMap.mp hn
        exact ih part hp n hn
  exact inside e e.mem_nodes_self

mutual

/-- The expression before the literals in it were numbered. -/
def unnumbered : Expr → Expr
  | .tuple fields span => .tuple (unnumberedFields fields) span
  | .varDecl declared type value span => .varDecl declared type value.unnumbered span
  | .binary op lhs rhs span => .binary op lhs.unnumbered rhs.unnumbered span
  | .unary op operand span => .unary op operand.unnumbered span
  | .function literal span => .function { literal with id := 0 } span
  | .int value span => .int value span
  | .hex value span => .hex value span
  | .float value span => .float value span
  | .text value span => .text value span
  | .name value span => .name value span
  | .typeDecl declared type span => .typeDecl declared type span

def unnumberedFields : List (Labelled Expr) → List (Labelled Expr)
  | [] => []
  | ⟨label, value⟩ :: rest => ⟨label, value.unnumbered⟩ :: unnumberedFields rest

end

@[simp] theorem span_unnumbered (e : Expr) : e.unnumbered.span = e.span := by
  cases e <;> simp [unnumbered, span]

@[simp] theorem places_unnumbered (e : Expr) : e.unnumbered.places = e.places := by
  cases e <;> simp [unnumbered, places, annotations, span]

@[simp] theorem isPair_unnumbered (e : Expr) : e.unnumbered.IsPair ↔ e.IsPair := by
  cases e with
  | tuple fields span =>
    match fields with
    | [] => simp [unnumbered, unnumberedFields, IsPair]
    | [_] => simp [unnumbered, unnumberedFields, IsPair]
    | [_, _] => simp [unnumbered, unnumberedFields, IsPair]
    | _ :: _ :: _ :: _ => simp [unnumbered, unnumberedFields, IsPair]
  | _ => simp [unnumbered, IsPair]

theorem unnumbered_eq_binary {e lhs rhs : Expr} {op : BinaryOp} {span : Span}
    (h : e.unnumbered = (binary op lhs rhs span).unnumbered) : ∃ lhs' rhs',
      e = .binary op lhs' rhs' span ∧ lhs'.unnumbered = lhs.unnumbered ∧
        rhs'.unnumbered = rhs.unnumbered := by
  cases e with
  | binary op' lhs' rhs' span' =>
    simp only [unnumbered, binary.injEq] at h
    obtain ⟨rfl, left, right, rfl⟩ := h
    exact ⟨lhs', rhs', rfl, left, right⟩
  | _ => simp [unnumbered] at h

mutual

theorem nodes_unnumbered : ∀ e : Expr, e.unnumbered.nodes = e.nodes.map unnumbered
  | .tuple fields span => by simp [unnumbered, nodes, nodesOfFields_unnumbered fields]
  | .varDecl declared type value span => by simp [unnumbered, nodes, nodes_unnumbered value]
  | .binary op lhs rhs span => by simp [unnumbered, nodes, nodes_unnumbered lhs, nodes_unnumbered rhs]
  | .unary op operand span => by simp [unnumbered, nodes, nodes_unnumbered operand]
  | .function .. | .int .. | .hex .. | .float .. | .text .. | .name .. | .typeDecl .. => by
    simp [unnumbered, nodes]

theorem nodesOfFields_unnumbered : ∀ fields : List (Labelled Expr),
    nodesOfFields (unnumberedFields fields) = (nodesOfFields fields).map unnumbered
  | [] => rfl
  | ⟨label, value⟩ :: rest => by
    simp [unnumberedFields, nodesOfFields, nodes_unnumbered value, nodesOfFields_unnumbered rest]

end

end Expr

end WindowedClosures
