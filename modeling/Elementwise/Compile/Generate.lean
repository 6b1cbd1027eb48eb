import Elementwise.Diagnostic.Sink
import Elementwise.Function.Library
import Elementwise.Registry.Basic
import Elementwise.Tree.Term

/-!
# Generating code

The code of a program's term. A term can stand where an expression, a statement or a target of
assignment is wanted. What cannot be generated is reported and left out, and generation goes on
with the next statement, so one run reports every independent problem.
-/

namespace Elementwise

/-- What generation looks things up in. -/
structure Context where
  registry : Registry
  library : Library
  custom : CustomData
  spanOf : NodeId → Option Span

/-- Code under construction, the open scopes with their locals, innermost first, the number of
loops around, and what was reported. -/
structure Generation where
  builder : Builder
  sink : Sink
  scopes : List (List (String × Operand)) := []
  loopDepth : Nat := 0

/-- A step of generation. -/
abbrev GenerateM := StateM Generation

/-- A step of generation whose result may be missing; what it did before stays. -/
abbrev PartM := OptionT GenerateM

/-- Where an assignment puts its value. -/
inductive Place where
  | register (operand : Operand)
  | slot (slot : Nat) (ty : Ty)
  /-- A component of an array, which was loaded once into `container`. -/
  | component (base : Place) (container index : Operand)

/-- The type of what a place holds. -/
def Place.ty : Place → Ty
  | .register operand => operand.ty
  | .slot _ ty => ty
  | .component _ container _ => container.ty.elementTy

namespace Generate

/-- A step of building inside generation. -/
def build {α : Type} (action : BuildM α) : GenerateM α := fun g =>
  let (a, builder) := action g.builder
  (a, { g with builder })

/-- A step of building inside generation. -/
def emit {α : Type} (action : BuildM α) : PartM α := OptionT.lift (build action)

/-- Record a diagnostic. -/
def push (d : Diagnostic) : GenerateM Unit := modify fun g => { g with sink := g.sink.push d }

/-- Report an error at a node. -/
def report (ctx : Context) (kind : ErrorKind) (node : NodeId) (message : String) : GenerateM Unit :=
  push (.error kind message (ctx.spanOf node))

/-- Report an error at a node, without a result. -/
def fail {α : Type} (ctx : Context) (kind : ErrorKind) (node : NodeId) (message : String) : PartM α := do
  OptionT.lift (report ctx kind node message)
  failure

/-- The operand of a local. -/
def lookupLocal? (name : String) (g : Generation) : Option Operand :=
  g.scopes.findSome? fun scope => scope.lookup name

/-- Open a scope. -/
def pushScope : GenerateM Unit := modify fun g => { g with scopes := [] :: g.scopes }

/-- Close the innermost scope. -/
def popScope : GenerateM Unit := modify fun g => { g with scopes := g.scopes.tail }

/-- Declare a local in the innermost scope. -/
def declareLocal (name : String) (operand : Operand) : GenerateM Unit := modify fun g =>
  match g.scopes with
  | scope :: rest => { g with scopes := ((name, operand) :: scope) :: rest }
  | [] => g

/-- The operand of a local that must be declared. -/
def localOperand (ctx : Context) (id : NodeId) (name : String) : PartM Operand := do
  match lookupLocal? name (← get) with
  | some operand => return operand
  | none => fail ctx .declaration id ("local '" ++ name ++ "' is not declared")

/-- An operand converted to a type, if it converts implicitly. -/
def coerce (ctx : Context) (operand : Operand) (goal : Ty) (node : NodeId) : PartM Operand :=
  if operand.ty.convertsTo goal then emit (Builder.convert operand goal)
  else fail ctx .semantic node
    ("cannot implicitly convert " ++ operand.ty.text ++ " to " ++ goal.text)

/-- A scalar as a truth value; `role` says what it is wanted for. -/
def truth (ctx : Context) (role : String) (operand : Operand) (node : NodeId) : PartM Operand :=
  if operand.ty.isScalar then emit (Builder.convert operand .bool)
  else fail ctx .semantic node (role ++ ", found " ++ operand.ty.text)

/-- A condition. -/
def condition (ctx : Context) (operand : Operand) (node : NodeId) : PartM Operand :=
  truth ctx "condition must be a scalar" operand node

/-- An operand of a logical operator. -/
def logicalOperand (ctx : Context) (operand : Operand) (node : NodeId) : PartM Operand :=
  truth ctx "logical operators need scalar operands" operand node

/-- The slot of a field, which must be registered with this type and, to be written, as writable. -/
def fieldSlot (ctx : Context) (id : NodeId) (name : String) (ty : Ty) (write : Bool) : PartM Nat :=
  let field := ctx.registry.target.fieldName ++ " '@" ++ name ++ "'"
  match ctx.registry.get? name with
  | none => fail ctx .semantic id (field ++ " is not registered")
  | some entry =>
    if entry.ty ≠ ty then
      fail ctx .typeConflict id
        (field ++ " is registered as " ++ entry.ty.text ++ " but used as " ++ ty.text)
    else if write && !entry.writable then fail ctx .semantic id (field ++ " is read-only")
    else return entry.index

/-- A value of the host, as a constant; one that is not there reads as zero, with a warning. -/
def externalValue (ctx : Context) (id : NodeId) (name : String) (ty : Ty) : PartM Operand :=
  match ctx.custom.get? name with
  | none => do
    let message := "external '$" ++ name ++ "' is not in the custom data, reading zero"
    OptionT.lift (push (.warning .semantic message (ctx.spanOf id)))
    emit (Builder.constant (.zero ty))
  | some value =>
    if value.ty ≠ ty then
      fail ctx .typeConflict id ("external '$" ++ name ++ "' is " ++ value.ty.text ++
        " in the custom data but used as " ++ ty.text)
    else emit (Builder.constant value)

/-- Whether the operands of a class of operators have types it is defined on. -/
def operandsFit (c : OpClass) (left right : Ty) : Bool :=
  match c with
  | .relational => left.isScalar && right.isScalar
  | .bitwise => left.isIntegerScalar && right.isIntegerScalar
  | .arithmetic => left.isNumeric && right.isNumeric
  | .equality | .logical => true

/-- The type in which a class of operators computes, from the common type of its operands: truth
values are computed with as integers. -/
def operandTy (c : OpClass) (common : Ty) : Ty :=
  if (c = .arithmetic ∨ c = .bitwise) ∧ common = .bool then .int32 else common

/-- The type of the result of a class of operators. -/
def resultTy (c : OpClass) (operand : Ty) : Ty :=
  if c = .equality ∨ c = .relational then .bool else operand

/-- The code of an operator on two operands with a common type. -/
def applyBinary (op : BinaryOp) (left right : Operand) (common : Ty) : BuildM Operand := do
  let ty := operandTy op.opClass common
  let l ← Builder.convert left ty
  let r ← Builder.convert right ty
  Builder.binary op l r (resultTy op.opClass ty)

/-- An operator on two operands that were both evaluated. -/
def binaryValues (ctx : Context) (id : NodeId) (op : BinaryOp) (left right : Operand) : PartM Operand :=
  match if operandsFit op.opClass left.ty right.ty then Ty.common? left.ty right.ty else none with
  | none =>
    fail ctx .semantic id ("operator '" ++ op.symbol ++ "' cannot be applied to " ++ left.ty.text ++
      " and " ++ right.ty.text)
  | some common => emit (applyBinary op left right common)

/-- The type of the result of an operator on one operand. -/
def unaryTy? (op : UnaryOp) (ty : Ty) : Option Ty :=
  match op with
  | .neg | .plus => if ty.isNumeric then some (if ty = .bool then .int32 else ty) else none
  | .not => if ty.isScalar then some .bool else none
  | .bitNot => if ty.isIntegerScalar then some (if ty = .bool then .int32 else ty) else none

/-- The code of an operator on one operand, computed in a type. -/
def applyUnary (op : UnaryOp) (operand : Operand) (ty : Ty) : BuildM Operand := do
  let v ← Builder.convert operand ty
  Builder.unary op v ty

/-- An operator on an operand that was evaluated. -/
def unaryValue (ctx : Context) (id : NodeId) (op : UnaryOp) (operand : Operand) : PartM Operand :=
  match unaryTy? op operand.ty with
  | none =>
    fail ctx .semantic id ("operator '" ++ op.symbol ++ "' cannot be applied to " ++ operand.ty.text)
  | some ty => emit (applyUnary op operand ty)

/-- What a place holds. -/
def load : Place → BuildM Operand
  | .register operand => return operand
  | .slot slot ty => Builder.readSlot slot ty
  | .component _ container index => Builder.extract container index

/-- Put an operand of the place's type into a place. -/
def store : Place → Operand → BuildM Unit
  | .register operand, value => Builder.assign operand value
  | .slot slot _, value => Builder.writeSlot slot value
  | .component base container index, value => do
    Builder.insert container index value
    match base with
    | .register operand => if operand.reg = container.reg then return () else Builder.assign operand container
    | base => store base container

/-- Step a place by one; the result is the old value of a post form, else the new one. -/
def step (op : CrementOp) (post : Bool) (place : Place) : BuildM Operand := do
  let ty := place.ty
  let current ← load place
  let old ← if post then do
      let old ← Builder.alloc ty
      Builder.assign old current
      pure (some old)
    else pure none
  let one ← Builder.constantAs (.int32 1) ty
  let new ← Builder.binary op.binary current one ty
  store place new
  return old.getD new

/-- Step a place that holds a number. -/
def stepPlace (ctx : Context) (id : NodeId) (op : CrementOp) (post : Bool) (place : Place) : PartM Operand :=
  if !place.ty.isScalar || place.ty = .bool then
    fail ctx .semantic id ("cannot increment or decrement " ++ place.ty.text)
  else emit (step op post place)

/-- Assign an operand to a place, after the operator of a compound assignment. -/
def assignPlace (ctx : Context) (id valueId : NodeId) (compound : Option BinaryOp) (place : Place)
    (value : Operand) : PartM Operand := do
  let value ← match compound with
    | some op => do
      let current ← emit (load place)
      binaryValues ctx id op current value
    | none => pure value
  let stored ← coerce ctx value place.ty valueId
  emit (store place stored)
  return stored

/-- The type of an array of components that are scalars. -/
def packTy? (items : List Ty) : Option Ty :=
  let kinds := items.mapM fun ty => match ty with
    | .scalar kind => some kind
    | _ => none
  let kind := kinds.bind fun kinds => kinds.foldl (fun k next => some ((k.map next.promote).getD next)) none
  kind.bind fun kind => Ty.array? kind items.length

/-- The code of an array of a type. -/
def applyPack (items : List Operand) (ty : Ty) : BuildM Operand := do
  let items ← items.mapM fun o => Builder.convert o ty.elementTy
  Builder.pack items ty

/-- An array of operands that are scalars. -/
def packValues (ctx : Context) (id : NodeId) (items : List Operand) : PartM Operand :=
  match packTy? (items.map Operand.ty) with
  | none =>
    fail ctx .semantic id ("cannot pack " ++ Nat.repr items.length ++
      " component(s); arrays hold 2, 3, 4, 9 or 16 scalars")
  | some ty => emit (applyPack items ty)

/-- The integer of a literal index. -/
def literalIndex? : Term → Option Int
  | .node _ (.value literal) => literal.integer?
  | _ => none

/-- An index, from the term it stands in and the step that generates it. A literal must be in
range. -/
def indexOperand (ctx : Context) (limit : Nat) (index : Term) (generate : PartM Operand) : PartM Operand := do
  match literalIndex? index with
  | some n =>
    if n < 0 ∨ limit ≤ n then
      fail ctx .semantic index.id
        ("index " ++ toString n ++ " is out of range 0.." ++ Nat.repr limit)
  | none => pure ()
  let operand ← generate
  if operand.ty.isIntegerScalar then emit (Builder.convert operand .int32)
  else fail ctx .semantic index.id ("array index must be an integer, found " ++ operand.ty.text)

/-- The code of the position of a matrix entry by row and column. -/
def entryIndex (size : UInt8) (row column : Operand) : BuildM Operand := do
  let size ← Builder.int (Int32.ofInt size.toNat)
  let start ← Builder.binary .mul row size .int32
  Builder.binary .add start column .int32

/-- The position of a component: of a vector or matrix by one index, of a matrix by row and
column. -/
def componentIndex (ctx : Context) (id : NodeId) (container : Operand) (index : Term × PartM Operand)
    (column : Option (Term × PartM Operand)) : PartM Operand :=
  match container.ty, column with
  | .vector _ n, none => indexOperand ctx n.toNat index.1 index.2
  | .matrix _ n, none => indexOperand ctx (n.toNat * n.toNat) index.1 index.2
  | .matrix _ n, some column => do
    let i ← indexOperand ctx n.toNat index.1 index.2
    let j ← indexOperand ctx n.toNat column.1 column.2
    emit (entryIndex n i j)
  | ty, column =>
    fail ctx .semantic id ("cannot index into " ++ ty.text ++ " with " ++
      (if column.isSome then "2" else "1") ++ " index(es)")

/-- The group that a call names, which must be there for the target. -/
def callee (ctx : Context) (id : NodeId) (name : String) : PartM Group :=
  match ctx.library.get? name with
  | none => fail ctx (.resolution .none) id ("unknown function '" ++ name ++ "'")
  | some group =>
    if group.volumeOnly && ctx.registry.target = .points then
      fail ctx .semantic id ("'" ++ name ++ "' is only available in volume programs")
    else return group

/-- The diagnostic of a call that no overload takes. -/
def unresolved (ctx : Context) (id : NodeId) (name : String) (group : Group) (e : ResolutionError) : Diagnostic :=
  let d := Diagnostic.error (.resolution e.tier) e.message (ctx.spanOf id)
  let d := { d with notes := e.candidates.map fun s => "candidate: " ++ name ++ s.text }
  if group.doc.isEmpty then d else d.withHelp (name ++ ": " ++ group.doc)

/-- The operands of a call, each converted to the parameter that receives it. -/
def convertArguments (signature : Signature) : Nat → List Operand → BuildM (List Operand)
  | _, [] => return []
  | i, operand :: rest => do
    let operand ← match signature.param? i with
      | some (param, _) => Builder.convert operand param
      | none => pure operand
    let rest ← convertArguments signature (i + 1) rest
    return operand :: rest

/-- Code in place of a call; its result must be what the signature declares. -/
def inlineCall (ctx : Context) (id : NodeId) (name : String) (signature : Signature)
    (generator : Generator) (args : List Operand) : PartM Operand := do
  match ← emit (generator ctx.custom args).run with
  | some operand =>
    if operand.ty = signature.ret then return operand
    else fail ctx .generation id (GenerationError.typeMismatch name signature operand.ty).message
  | none =>
    if signature.ret = .void then emit (Builder.alloc .void)
    else fail ctx .generation id (GenerationError.noValue name signature).message

/-- A call with operands that were evaluated. -/
def callValues (ctx : Context) (id : NodeId) (name : String) (group : Group) (values : List Operand) :
    PartM Operand :=
  match group.resolve (values.map Operand.ty) with
  | .error e => do
    OptionT.lift (push (unresolved ctx id name group e))
    failure
  | .ok resolution => do
    let signature := resolution.function.signature
    let args ← emit (convertArguments signature 0 values)
    match resolution.function.implementation with
    | .native body => emit (Builder.callNative name body args signature.ret)
    | .emitted generator => inlineCall ctx id name signature generator args

/-- Declare a local of a type with the value that `start` generates, or zero. -/
def declare (ctx : Context) (id : NodeId) (ty : Ty) (name : Term) (start : Option (NodeId × PartM Operand)) :
    PartM Unit :=
  match name with
  | .node nameId (.localName name) => do
    if (lookupLocal? name (← get)).isSome then
      let d := Diagnostic.error .declaration ("local '" ++ name ++ "' is already declared") (ctx.spanOf nameId)
      OptionT.lift (push (d.withHelp "locals may not shadow locals of an enclosing scope"))
      failure
    if ty = .void then fail ctx .declaration id ("local '" ++ name ++ "' cannot be void")
    let value ← match start with
      | some (startId, generate) => do
        let v ← generate
        let v ← coerce ctx v ty startId
        pure (some v)
      | none => pure none
    let operand ← emit (Builder.alloc ty)
    match value with
    | some value => emit (Builder.assign operand value)
    | none => emit (Builder.emit (.const operand.reg (.zero ty)))
    OptionT.lift (declareLocal name operand)
  | _ => fail ctx .declaration id "declaration without a local name"

/-- The word of a jump, which must stand in a loop unless it returns. -/
def jump (ctx : Context) (id : NodeId) (word : Jump) : GenerateM Unit := do
  if word ≠ .return ∧ (← get).loopDepth = 0 then
    report ctx .semantic id ("'" ++ word.name ++ "' outside of a loop")
  else build (Builder.emit (.jump word))

/-- What a step generates, in a block of its own. -/
def inBlock {α : Type} (action : GenerateM α) : GenerateM (α × List Instr) := do
  build Builder.beginBlock
  let a ← action
  let body ← build Builder.endBlock
  return (a, body)

/-- What a step generates one loop deeper. -/
def inLoop {α : Type} (action : GenerateM α) : GenerateM α := do
  modify fun g => { g with loopDepth := g.loopDepth + 1 }
  let a ← action
  modify fun g => { g with loopDepth := g.loopDepth - 1 }
  return a

/-- A logical operator: the right operand is only evaluated if the left one does not decide. -/
def logical (ctx : Context) (op : BinaryOp) (left right : NodeId × PartM Operand) : PartM Operand := do
  let l ← left.2
  let l ← logicalOperand ctx l left.1
  let result ← emit (Builder.alloc .bool)
  emit (Builder.assign result l)
  let (done, body) ← OptionT.lift <| inBlock <| OptionT.run do
    let r ← right.2
    let r ← logicalOperand ctx r right.1
    emit (Builder.assign result r)
  match done with
  | none => failure
  | some () =>
    let (thenBody, elseBody) := if op = .and then (body, []) else ([], body)
    emit (Builder.emit (.branch l.reg thenBody elseBody))
    return result

/-- A conditional; nothing is generated if its condition cannot be. -/
def conditional (ctx : Context) (test : NodeId × PartM Operand) (thenBranch elseBranch : GenerateM Unit) :
    GenerateM Unit := do
  let cond ← OptionT.run do
    let c ← test.2
    condition ctx c test.1
  match cond with
  | none => return ()
  | some cond =>
    let (_, thenBody) ← inBlock thenBranch
    let (_, elseBody) ← inBlock elseBranch
    build (Builder.emit (.branch cond.reg thenBody elseBody))

/-- A loop; nothing but its start is generated if its condition cannot be. -/
def loop (ctx : Context) (kind : LoopKind) (start : GenerateM Unit) (test : Option (NodeId × PartM Operand))
    (step body : GenerateM Unit) : GenerateM Unit := do
  pushScope
  start
  let (cond, testBody) ← inBlock <| OptionT.run <| match test with
    | none => pure none
    | some (testId, generate) => do
      let c ← generate
      let c ← condition ctx c testId
      pure (some c)
  match cond with
  | none => popScope
  | some cond =>
    let (_, body) ← inBlock (inLoop body)
    let (_, step) ← inBlock step
    build (Builder.emit (.loop kind testBody (cond.map Operand.reg) body step))
    popScope

mutual
/-- The operand of a term that stands for a value. -/
def expr (ctx : Context) : Term → PartM Operand
  | .missing _ => failure
  | .node id content => exprNode ctx id content

/-- The operand of a node that stands for a value. -/
def exprNode (ctx : Context) (id : NodeId) : Node Term → PartM Operand
  | .value literal => emit (Builder.constant literal.toValue)
  | .localName name => localOperand ctx id name
  | .field name ty _ _ => do
    let slot ← fieldSlot ctx id name ty false
    emit (Builder.readSlot slot ty)
  | .external name ty => externalValue ctx id name ty
  | .binary op left right =>
    if op.opClass = .logical then
      logical ctx op (left.id, expr ctx left) (right.id, expr ctx right)
    else do
      let l ← expr ctx left
      let r ← expr ctx right
      binaryValues ctx id op l r
  | .unary op operand => do
    let v ← expr ctx operand
    unaryValue ctx id op v
  | .crement op post target => do
    let p ← place ctx target
    stepPlace ctx id op post p
  | .assign target value compound => do
    let p ← place ctx target
    let v ← expr ctx value
    assignPlace ctx id value.id compound p v
  | .cast ty operand => do
    let v ← expr ctx operand
    if v.ty.convertsTo ty then emit (Builder.convert v ty)
    else fail ctx .semantic id ("cannot cast " ++ v.ty.text ++ " to " ++ ty.text)
  | .call name args => do
    let group ← callee ctx id name
    let values ← exprs ctx args
    callValues ctx id name group values
  | .pack items => do
    let values ← exprs ctx items
    packValues ctx id values
  | .unpack array index column => do
    let container ← expr ctx array
    let i ← componentIndex ctx id container (index, expr ctx index)
      (match column with
        | none => none
        | some column => some (column, expr ctx column))
    emit (Builder.extract container i)
  | .block _ | .conditional _ _ _ | .loop _ _ _ _ _ | .jump _ | .declare _ _ _ =>
    fail ctx .semantic id "statement used as an expression"

/-- The operands of terms, from left to right. -/
def exprs (ctx : Context) : List Term → PartM (List Operand)
  | [] => return []
  | term :: rest => do
    let v ← expr ctx term
    let vs ← exprs ctx rest
    return v :: vs

/-- The place of a term that is assigned to. -/
def place (ctx : Context) : Term → PartM Place
  | .missing _ => failure
  | .node id (.localName name) => do
    let operand ← localOperand ctx id name
    return .register operand
  | .node id (.field name ty _ _) => do
    let slot ← fieldSlot ctx id name ty true
    return .slot slot ty
  | .node id (.unpack array index column) => do
    let base ← place ctx array
    let container ← emit (load base)
    let i ← componentIndex ctx id container (index, expr ctx index)
      (match column with
        | none => none
        | some column => some (column, expr ctx column))
    return .component base container i
  | .node id _ => fail ctx .semantic id "expression is not assignable"
end

mutual
/-- Generate a term that stands for a statement. -/
def stmt (ctx : Context) : Term → GenerateM Unit
  | .missing _ => return ()
  | .node _ (.block statements) => do
    pushScope
    stmts ctx statements
    popScope
  | .node _ (.conditional test thenBranch elseBranch) =>
    conditional ctx (test.id, expr ctx test) (stmt ctx thenBranch) (stmt ctx elseBranch)
  | .node _ (.loop kind start test step body) =>
    loop ctx kind
      (match start with
        | none => pure ()
        | some start => stmt ctx start)
      (test.map fun test => (test.id, expr ctx test))
      (match step with
        | none => pure ()
        | some step => stmt ctx step)
      (stmt ctx body)
  | .node id (.jump word) => jump ctx id word
  | .node id (.declare ty name start) => do
    let _ ← (declare ctx id ty name (start.map fun start => (start.id, expr ctx start))).run
    return ()
  | .node id content => do
    let _ ← (exprNode ctx id content).run
    return ()

/-- Generate statements, one after another. -/
def stmts (ctx : Context) : List Term → GenerateM Unit
  | [] => return ()
  | term :: rest => do
    stmt ctx term
    stmts ctx rest
end

end Generate

/-- The code of a program, and what was reported; the code is only meaningful without new errors. -/
def Code.generate (ctx : Context) (program : Term) (sink : Sink) : Code × Sink :=
  let builder : Builder := { target := ctx.registry.target, slots := ctx.registry.size }
  let (_, g) := Generate.stmt ctx program { builder, sink }
  (g.builder.finish, g.sink)

end Elementwise
