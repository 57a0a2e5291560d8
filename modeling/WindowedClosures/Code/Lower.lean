import WindowedClosures.Code.Emit
import WindowedClosures.Code.Place
import WindowedClosures.Code.Truth

/-!
# Code for expressions

An expression is lowered into the registers from a destination on, in the shape of a type; a void
type means that the value is not needed. Scratch registers lie above the scope's window and are
given back after every expression, so the frame of a call, which is reserved last, never overlaps a
value that is still needed. A call names the offset of its frame in the caller's window: there the
callee's output starts, and behind it the argument.
-/

namespace WindowedClosures

/-- How to lower an expression: destination, then shape. -/
abbrev Lowering := Register → Ty → Emit Unit

namespace Emit

/-- Copy a value of one type into the shape of another, as far as the smaller one reaches. -/
def copy (dst src : Register) (srcTy ty : Ty) : Emit Unit :=
  if ty.isVoid then pure () else copyRegisters dst src (min srcTy.size ty.size)

/-- The bytes of a string literal: its ASCII characters and a zero. -/
def literalBytes (text : String) : List UInt8 :=
  (text.toList.filter fun c => c.toNat < 128).map (fun c => UInt8.ofNat c.toNat) ++ [0]

/-- Four bytes to a word, the low one first; the last word is filled with zeros. -/
def packWords : List UInt8 → List Int32
  | [] => []
  | [a] => [word a 0 0 0]
  | [a, b] => [word a b 0 0]
  | [a, b, c] => [word a b c 0]
  | a :: b :: c :: d :: rest => word a b c d :: packWords rest
where
  word (a b c d : UInt8) : Int32 :=
    Int32.ofNat (a.toNat + b.toNat * 256 + c.toNat * 65536 + d.toNat * 16777216)

/-- How many characters an array of them holds. -/
def charCapacity (ty : Ty) : Nat :=
  match ty.resolved with
  | .array elem count =>
    match elem.resolved with
    | .char => count
    | _ => 0
  | _ => 0

/-- Load words into registers one behind the other. -/
def loadWords (dst : Register) (words : List Int32) : Emit Unit :=
  words.zipIdx.forM fun (word, i) => do loadInt (← register (dst.shift i)) word

/-- A string literal: a single character, or a packed array with a zero behind the last
character. -/
def text (value : String) (span : Span) (dst : Register) (ty : Ty) : Emit Unit :=
  let bytes := literalBytes value
  match ty.resolved, bytes with
  | .char, [c, _] => push (.wide .loadLow dst (UInt16.ofNat c.toNat))
  | _, _ =>
    let capacity := charCapacity ty
    if capacity ≤ bytes.length then
      fail (.literalTooLarge (bytes.length - 1) capacity span)
    else loadWords dst (packWords bytes)

/-- Offsets and types for the fields of a tuple type. -/
def fieldSlots (offset : Nat) : List (Labelled Ty) → List (Nat × Ty)
  | [] => []
  | ⟨_, ty⟩ :: rest => (offset, ty) :: fieldSlots (offset + ty.size) rest

/-- Where the fields of a tuple literal of so many fields go in a value of a type. -/
def slots? (ty : Ty) (count : Nat) : Option (List (Nat × Ty)) :=
  match ty.resolved with
  | .void => if count = 0 then some [] else none
  | .tuple types => if types.length = count then some (fieldSlots 0 types) else none
  | .array elem length =>
    if length = count ∧ ¬ elem.isPacked then
      some ((List.range count).map fun i => (i * elem.size, elem))
    else none
  | _ => none

/-- Copy the registers of a captured variable into the closure that is being filled. -/
def capture (s : Site) (span : Span) (v : Variable) : Emit Unit := do
  let origin ← register (← lift (s.lookup v.name span)).register
  let slot ← register (Register.ofOffset .aux v.offset)
  copyRegisters slot origin v.ty.size

/-- A function value: the bare address, or a fresh closure with a copy of what is captured. -/
def function (s : Site) (literal : FunctionLiteral) (span : Span) (dst : Register) :
    Emit Unit := do
  if (s.tree.function? literal.id).isNone then
    fail (.semantic (.unknownFunction literal.id span))
  else
    let captured := (s.tree.scope literal.scope).closure
    if captured.isEmpty then pushFor (.wide .loadLow dst 0) literal.id
    else
      pushFor (.wide .closureMake dst 0) literal.id
      captured.forM (capture s span)

/-- A register that holds the word of an expression: that of a variable, or a scratch register. -/
def operand (s : Site) (e : Expr) (lowered : Lowering) : Emit Register := do
  let e := e.unwrapped
  match e.asName? with
  | some name =>
    let v ← lift (s.lookup name e.span)
    lift (Site.checkIntegral v e.span)
    register v.register
  | none =>
    match ← lift e.constant? with
    | some value => constant value
    | none =>
      match e with
      | .float _ span => fail (.unsupported .floatArithmetic span)
      | _ =>
        let r ← temp
        releasing (lowered r .int)
        return r

/-- Whether an expression always yields 0 or 1. -/
def isTruthValue : Expr → Bool
  | .binary (.comparison _) _ _ _ => true
  | .binary (.connective _) _ _ _ => true
  | .unary .not _ _ => true
  | _ => false

/-- A register that holds 1 if the word of an expression is not zero, and 0 otherwise. -/
def truth (s : Site) (e : Expr) (lowered : Lowering) : Emit Register := do
  let e := e.unwrapped
  if isTruthValue e then operand s e lowered
  else
    match ← lift e.constant? with
    | some value => constant (if value ≠ 0 then 1 else 0)
    | none =>
      let value ← operand s e lowered
      let t ← temp
      nonzero t value
      return t

def operationOf : Arithmetic → Operation
  | .add => .add
  | .sub => .sub
  | .mul => .mul
  | .div => .div
  | .mod => .mod

/-- Whether an operand needs no code of its own but at most a constant. -/
def isLeaf (e : Expr) : Bool :=
  e.unwrapped.asName?.isSome ||
    match e.constant? with
    | .ok value => value.isSome
    | .error _ => false

/-- A register that holds the word of an expression: one of its own, or else the destination. -/
def operandIn (s : Site) (e : Expr) (lowered : Lowering) (own : Bool) (dst : Register) :
    Emit Register :=
  if own then operand s e lowered
  else do
    releasing (lowered dst .int)
    return dst

/-- Arithmetic on two operands. A compound operand may be built in the destination, unless the other
operand still has to read it. -/
def arithmetic (s : Site) (op : Arithmetic) (whole lhs rhs : Expr) (lowerLhs lowerRhs : Lowering)
    (dst : Register) : Emit Unit := do
  match ← lift whole.constant? with
  | some value => loadInt dst value
  | none =>
    let lhs := lhs.unwrapped
    let rhs := rhs.unwrapped
    match lhs.asName?, rhs.asName? with
    | some l, some r =>
      let l ← lift (s.lookup l lhs.span)
      let r ← lift (s.lookup r rhs.span)
      if l.ty.Matches r.ty then
        lift (Site.checkIntegral l lhs.span)
        triple (operationOf op) dst (← register l.register) (← register r.register)
      else fail (.semantic (.typeMismatch l.ty.render r.ty.render rhs.span))
    | _, _ =>
      let kept := s.mentions dst rhs
      let a ← operandIn s lhs lowerLhs (isLeaf lhs || kept) dst
      let b ← operandIn s rhs lowerRhs (isLeaf rhs || a == dst || kept) dst
      triple (operationOf op) dst a b

/-- Put the argument of a call, if it has one, behind the callee's output. -/
def placeArgument (argument : Option Lowering) (input : Nat) (ty : Ty) : Emit Unit :=
  match argument with
  | some lowered => do
    let r ← register (Register.ofOffset .window input)
    releasing (lowered r ty)
  | none => pure ()

/-- Call the function word in a register with a frame at the watermark, then copy its output. -/
def invoke (dst function : Register) (arrow : Arrow) (argument : Option Lowering) (ty : Ty)
    (span : Span) : Emit Unit := do
  if !ty.isVoid && !decide (arrow.output.Matches ty) then
    fail (.semantic (.typeMismatch ty.render arrow.output.render span))
  else
    let frame ← alloc arrow.output.size
    let input ← alloc arrow.input.size
    placeArgument argument input arrow.input
    pushCall ⟨.callRegister, UInt8.ofNat frame, UInt16.ofNat function.toByte.toNat⟩ arrow
    let output ← register (Register.ofOffset .window frame)
    copy dst output arrow.output ty

/-- The buffer that a printed text is built in. -/
def printBuffer : Ty := .array .char 24

/-- Print an argument. -/
def print (lowerArgument : Lowering) : Emit Unit := do
  let buffer ← register (Register.ofOffset .window (← alloc printBuffer.size))
  releasing (lowerArgument buffer printBuffer)
  push (.wide .print buffer 0)

/-- A call of a variable, of a built-in function or of any other function value. -/
def call (s : Site) (callee : Expr) (lowerCallee lowerArgument : Lowering) (span : Span)
    (dst : Register) (ty : Ty) : Emit Unit := do
  let callee := callee.unwrapped
  match callee.asName? with
  | some name =>
    match s.scope.local? name with
    | some v =>
      match v.ty.arrow? with
      | some arrow => invoke dst (← register v.register) arrow (some lowerArgument) ty span
      | none => fail (.semantic (.typeMismatch "a function" v.ty.render callee.span))
    | none =>
      if builtinFunctions.contains name then print lowerArgument
      else fail (.semantic (.unknownIdentifier name callee.span))
  | none =>
    match s.tree.arrowOf s.id callee with
    | .error e => fail (.semantic e)
    | .ok arrow =>
      let function ← temp
      releasing (lowerCallee function arrow.toTy)
      invoke dst function arrow (some lowerArgument) ty span

/-- The arrow of an arm of a choice. -/
def armArrow (s : Site) (arm : Expr) : Emit Arrow :=
  match s.tree.arrowOf s.id arm with
  | .ok arrow => pure arrow
  | .error e => fail (.semantic e)

/-- A choice between two arms, each a function value. The function called is
`no + condition * (yes - no)`; a constant condition selects its arm at once. -/
def choose (s : Site) (cond yes no : Expr) (lowerCond lowerYes lowerNo : Lowering) (span : Span)
    (dst : Register) (ty : Ty) : Emit Unit := do
  let arrow ← armArrow s yes
  let other ← armArrow s no
  if ¬ arrow.output.Matches other.output then
    fail (.semantic (.typeMismatch arrow.output.render other.output.render no.span))
  else
    match ← lift cond.constant? with
    | some value =>
      let word ← temp
      releasing ((if value ≠ 0 then lowerYes else lowerNo) word arrow.toTy)
      invoke dst word arrow none ty span
    | none =>
      let c ← truth s cond lowerCond
      let t ← temp
      releasing (lowerYes t arrow.toTy)
      let e ← temp
      releasing (lowerNo e arrow.toTy)
      triple .sub t t e
      triple .mul t t c
      triple .add t t e
      invoke dst t arrow none ty span

/-- Assign to a variable and return it. -/
def assign (s : Site) (target : Expr) (lowerValue : Lowering) : Emit Variable := do
  match target.asName? with
  | none => fail (.unsupported .assignmentTarget target.span)
  | some name =>
    let v ← lift (s.lookup name target.span)
    releasing (lowerValue (← register v.register) v.ty)
    return v

/-- Copy the value of a variable into the shape of a type. -/
def copyVariable (dst : Register) (v : Variable) (ty : Ty) : Emit Unit := do
  copy dst (← register v.register) v.ty ty

end Emit

open Emit

mutual

/-- Lower an expression into registers, in the shape of a type. -/
def lower (s : Site) : Expr → Lowering
  | .int value _, dst, _ => loadInt dst value
  | .hex value _, dst, _ => loadInt dst value.toInt32
  | .float _ span, _, _ => fail (.unsupported .floatLiteral span)
  | .text value span, dst, ty => text value span dst ty
  | .name value span, dst, ty => do
    let v ← lift (s.lookup value span)
    copyVariable dst v ty
  | .tuple [⟨none, value⟩] _, dst, ty => lower s value dst ty
  | .tuple fields span, dst, ty =>
    match slots? ty fields.length with
    | some slots => lowerFields s fields slots dst
    | none =>
      fail (.semantic (.typeMismatch ty.render
        ("a tuple of " ++ toString fields.length ++ " fields") span))
  | .typeDecl .., _, _ => pure ()
  | .varDecl _ _ _ span, _, _ => fail (.unsupported .nestedDeclaration span)
  | .function literal span, dst, _ => function s literal span dst
  | .unary op operand span, dst, _ =>
    match op with
    | .neg => do
      match ← lift (Expr.unary .neg operand span).constant? with
      | some value => loadInt dst value
      | none =>
        let zero ← constant 0
        let value ← Emit.operand s operand (lower s operand)
        triple .sub dst zero value
    | .not => do
      let value ← truth s operand (lower s operand)
      invert dst value
    | .deref => fail (.unsupported (.unary .deref) span)
    | .ref => fail (.unsupported (.unary .ref) span)
  | .binary op lhs rhs span, dst, ty =>
    match op with
    | .call | .apply => call s lhs (lower s lhs) (lower s rhs) span dst ty
    | .arithmetic op =>
      arithmetic s op (.binary (.arithmetic op) lhs rhs span) lhs rhs (lower s lhs) (lower s rhs) dst
    | .comparison op => do
      let a ← Emit.operand s lhs (lower s lhs)
      let b ← Emit.operand s rhs (lower s rhs)
      Emit.compare op dst a b
    | .connective op => do
      let a ← truth s lhs (lower s lhs)
      let b ← truth s rhs (lower s rhs)
      connect op dst a b
    | .choose =>
      match rhs with
      | .tuple [⟨_, yes⟩, ⟨_, no⟩] _ =>
        choose s lhs yes no (lower s lhs) (lower s yes) (lower s no) span dst ty
      | arms => fail (.semantic (.invalidControl arms.span))
    | .field | .index => do
      let (src, srcTy) ← lift (s.place (.binary op lhs rhs span))
      copy dst src srcTy ty
    | .assign => do
      let v ← assign s lhs (lower s rhs)
      if ty.isVoid then pure () else copyVariable dst v ty
    | .compose => fail (.semantic (.unresolvedComposition span))

/-- Lower the fields of a tuple to their slots, counted from the destination. -/
def lowerFields (s : Site) : List (Labelled Expr) → List (Nat × Ty) → Register → Emit Unit
  | ⟨_, value⟩ :: fields, (offset, ty) :: slots, dst => do
    let r ← register (dst.shift offset)
    releasing (lower s value r ty)
    lowerFields s fields slots dst
  | _, _, _ => pure ()

end

/-- Lower an expression and give back the scratch registers it took. -/
def eval (s : Site) (e : Expr) (dst : Register) (ty : Ty) : Emit Unit := releasing (lower s e dst ty)

end WindowedClosures
