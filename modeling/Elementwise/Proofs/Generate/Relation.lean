import Elementwise.Compile.Generate

/-!
# What generation emits

Generation as a relation between a term, the operand or place it stands for, and the builder before
and after. One rule for each way to generate a term; everything that is proved of generated code is
proved by induction over these rules.
-/

namespace Elementwise

/-- The locals in scope, innermost scope first. -/
abbrev Scopes := List (List (String × Operand))

namespace Scopes

/-- The operand of a local. -/
def find? (scopes : Scopes) (name : String) : Option Operand := scopes.findSome? fun scope => scope.lookup name

/-- The scopes with one more local in the innermost. -/
def declare (scopes : Scopes) (name : String) (operand : Operand) : Scopes :=
  match scopes with
  | scope :: rest => ((name, operand) :: scope) :: rest
  | [] => []

end Scopes

namespace Generate

/-- What terms are generated as: values, places, or indices. -/
inductive Part where
  | value (t : Term) (o : Operand)
  | values (ts : List Term) (os : List Operand)
  | place (t : Term) (p : Place)
  /-- An index below a limit. -/
  | index (limit : Nat) (t : Term) (o : Operand)
  /-- The position of a component of a container. -/
  | position (container : Operand) (index : Term) (column : Option Term) (o : Operand)

/-- The value that a name of the host stands for where it is used with a type. -/
def HostValue (custom : CustomData) (name : String) (ty : Ty) (v : Value) : Prop :=
  (custom.get? name = none ∧ v = .zero ty) ∨ (custom.get? name = some v ∧ v.ty = ty)

/-- An operator on two operands that it fits. -/
def Operated (op : BinaryOp) (left right o : Operand) (b b' : Builder) : Prop :=
  ∃ common, operandsFit op.opClass left.ty right.ty = true ∧ Ty.common? left.ty right.ty = some common ∧
    applyBinary op left right common b = (o, b')

/-- A scalar as a truth value. -/
def Truth (v o : Operand) (b b' : Builder) : Prop := v.ty.isScalar = true ∧ Builder.convert v .bool b = (o, b')

/-- An operand converted to a type that it converts to. -/
def Coerced (v : Operand) (ty : Ty) (o : Operand) (b b' : Builder) : Prop :=
  v.ty.convertsTo ty = true ∧ Builder.convert v ty b = (o, b')

/-- The overload that a call takes, and its operands converted to its parameters. -/
def Resolved (ctx : Context) (name : String) (values : List Operand) (function : Function)
    (args : List Operand) (b b' : Builder) : Prop :=
  ∃ group resolution, ctx.library.get? name = some group ∧
    (group.volumeOnly = true → ctx.registry.target ≠ .points) ∧
    group.resolve (values.map Operand.ty) = .ok resolution ∧ resolution.function = function ∧
    convertArguments function.signature 0 values b = (args, b')

/-- What a term is generated as, with the builder before and after. -/
inductive Emits (ctx : Context) (scopes : Scopes) : Part → Builder → Builder → Prop
  | literal {id l o b b'} (hbuild : Builder.constant l.toValue b = (o, b')) :
      Emits ctx scopes (.value (.node id (.value l)) o) b b'
  | localName {id name o b} (hfind : scopes.find? name = some o) :
      Emits ctx scopes (.value (.node id (.localName name)) o) b b
  | field {id name inferred writable entry o b b'} (hentry : ctx.registry.get? name = some entry)
      (hbuild : Builder.readSlot entry.index entry.ty b = (o, b')) :
      Emits ctx scopes (.value (.node id (.field name entry.ty inferred writable)) o) b b'
  | external {id name ty v o b b'} (hvalue : HostValue ctx.custom name ty v)
      (hbuild : Builder.constant v b = (o, b')) :
      Emits ctx scopes (.value (.node id (.external name ty)) o) b b'
  | logical {id op left right l lc result r rc u b₁ b₂ b₃ b₄ b₅ b₆ b₇ b₈ body b₉ b₁₀}
      (hop : op.opClass = .logical)
      (hleft : Emits ctx scopes (.value left l) b₁ b₂) (hl : Truth l lc b₂ b₃)
      (hresult : Builder.alloc .bool b₃ = (result, b₄)) (hassign : Builder.assign result lc b₄ = (u, b₅))
      (hright : Emits ctx scopes (.value right r) (Builder.beginBlock b₅).2 b₆) (hr : Truth r rc b₆ b₇)
      (hreassign : Builder.assign result rc b₇ = (u, b₈)) (hend : Builder.endBlock b₈ = (body, b₉))
      (hbranch : Builder.emit (.branch lc.reg (if op = .and then body else []) (if op = .and then [] else body)) b₉
        = (u, b₁₀)) :
      Emits ctx scopes (.value (.node id (.binary op left right)) result) b₁ b₁₀
  | binary {id op left right l r o b₁ b₂ b₃ b₄} (hop : op.opClass ≠ .logical)
      (hleft : Emits ctx scopes (.value left l) b₁ b₂) (hright : Emits ctx scopes (.value right r) b₂ b₃)
      (hbuild : Operated op l r o b₃ b₄) : Emits ctx scopes (.value (.node id (.binary op left right)) o) b₁ b₄
  | unary {id op operand v ty o b₁ b₂ b₃} (hoperand : Emits ctx scopes (.value operand v) b₁ b₂)
      (hty : unaryTy? op v.ty = some ty) (hbuild : applyUnary op v ty b₂ = (o, b₃)) :
      Emits ctx scopes (.value (.node id (.unary op operand)) o) b₁ b₃
  | crement {id op post target p o b₁ b₂ b₃} (htarget : Emits ctx scopes (.place target p) b₁ b₂)
      (hscalar : p.ty.isScalar = true) (hbool : p.ty ≠ .bool) (hbuild : step op post p b₂ = (o, b₃)) :
      Emits ctx scopes (.value (.node id (.crement op post target)) o) b₁ b₃
  | assign {id target value p v o u b₁ b₂ b₃ b₄ b₅} (htarget : Emits ctx scopes (.place target p) b₁ b₂)
      (hvalue : Emits ctx scopes (.value value v) b₂ b₃) (hcoerce : Coerced v p.ty o b₃ b₄)
      (hstore : store p o b₄ = (u, b₅)) :
      Emits ctx scopes (.value (.node id (.assign target value none)) o) b₁ b₅
  | compound {id target value op p v current w o u b₁ b₂ b₃ b₄ b₅ b₆ b₇}
      (htarget : Emits ctx scopes (.place target p) b₁ b₂) (hvalue : Emits ctx scopes (.value value v) b₂ b₃)
      (hload : load p b₃ = (current, b₄)) (hbuild : Operated op current v w b₄ b₅)
      (hcoerce : Coerced w p.ty o b₅ b₆) (hstore : store p o b₆ = (u, b₇)) :
      Emits ctx scopes (.value (.node id (.assign target value (some op))) o) b₁ b₇
  | cast {id ty operand v o b₁ b₂ b₃} (hoperand : Emits ctx scopes (.value operand v) b₁ b₂)
      (hcoerce : Coerced v ty o b₂ b₃) : Emits ctx scopes (.value (.node id (.cast ty operand)) o) b₁ b₃
  | native {id name args values function body args' o b₁ b₂ b₃ b₄}
      (hargs : Emits ctx scopes (.values args values) b₁ b₂)
      (hresolve : Resolved ctx name values function args' b₂ b₃)
      (hbody : function.implementation = .native body)
      (hbuild : Builder.callNative name body args' function.signature.ret b₃ = (o, b₄)) :
      Emits ctx scopes (.value (.node id (.call name args)) o) b₁ b₄
  | inline {id name args values function generator args' o b₁ b₂ b₃ b₄}
      (hargs : Emits ctx scopes (.values args values) b₁ b₂)
      (hresolve : Resolved ctx name values function args' b₂ b₃)
      (hgenerator : function.implementation = .emitted generator)
      (hbuild : (generator ctx.custom args').run b₃ = (some o, b₄)) (hret : o.ty = function.signature.ret) :
      Emits ctx scopes (.value (.node id (.call name args)) o) b₁ b₄
  | inlineVoid {id name args values function generator args' o b₁ b₂ b₃ b₄ b₅}
      (hargs : Emits ctx scopes (.values args values) b₁ b₂)
      (hresolve : Resolved ctx name values function args' b₂ b₃)
      (hgenerator : function.implementation = .emitted generator)
      (hbuild : (generator ctx.custom args').run b₃ = (none, b₄)) (hret : function.signature.ret = .void)
      (halloc : Builder.alloc .void b₄ = (o, b₅)) :
      Emits ctx scopes (.value (.node id (.call name args)) o) b₁ b₅
  | pack {id items values ty o b₁ b₂ b₃} (hitems : Emits ctx scopes (.values items values) b₁ b₂)
      (hty : packTy? (values.map Operand.ty) = some ty) (hbuild : applyPack values ty b₂ = (o, b₃)) :
      Emits ctx scopes (.value (.node id (.pack items)) o) b₁ b₃
  | unpack {id array index column container i o b₁ b₂ b₃ b₄}
      (harray : Emits ctx scopes (.value array container) b₁ b₂)
      (hindex : Emits ctx scopes (.position container index column i) b₂ b₃)
      (hbuild : Builder.extract container i b₃ = (o, b₄)) :
      Emits ctx scopes (.value (.node id (.unpack array index column)) o) b₁ b₄
  | nil {b} : Emits ctx scopes (.values [] []) b b
  | cons {t ts o os b₁ b₂ b₃} (hhead : Emits ctx scopes (.value t o) b₁ b₂)
      (htail : Emits ctx scopes (.values ts os) b₂ b₃) : Emits ctx scopes (.values (t :: ts) (o :: os)) b₁ b₃
  | placeLocal {id name o b} (hfind : scopes.find? name = some o) :
      Emits ctx scopes (.place (.node id (.localName name)) (.register o)) b b
  | placeField {id name inferred writable entry b} (hentry : ctx.registry.get? name = some entry)
      (hwritable : entry.writable = true) :
      Emits ctx scopes (.place (.node id (.field name entry.ty inferred writable)) (.slot entry.index entry.ty)) b b
  | placeComponent {id array index column base container i b₁ b₂ b₃ b₄}
      (hbase : Emits ctx scopes (.place array base) b₁ b₂) (hload : load base b₂ = (container, b₃))
      (hindex : Emits ctx scopes (.position container index column i) b₃ b₄) :
      Emits ctx scopes (.place (.node id (.unpack array index column)) (.component base container i)) b₁ b₄
  | index {limit : Nat} {t v o b₁ b₂ b₃} (hrange : ∀ n, literalIndex? t = some n → 0 ≤ n ∧ n < limit)
      (hvalue : Emits ctx scopes (.value t v) b₁ b₂) (hinteger : v.ty.isIntegerScalar = true)
      (hbuild : Builder.convert v .int32 b₂ = (o, b₃)) : Emits ctx scopes (.index limit t o) b₁ b₃
  | vectorPosition {container kind n index o b₁ b₂} (hty : container.ty = .vector kind n)
      (hindex : Emits ctx scopes (.index n.toNat index o) b₁ b₂) :
      Emits ctx scopes (.position container index none o) b₁ b₂
  | matrixPosition {container kind n index o b₁ b₂} (hty : container.ty = .matrix kind n)
      (hindex : Emits ctx scopes (.index (n.toNat * n.toNat) index o) b₁ b₂) :
      Emits ctx scopes (.position container index none o) b₁ b₂
  | entryPosition {container kind n row column i j o b₁ b₂ b₃ b₄} (hty : container.ty = .matrix kind n)
      (hrow : Emits ctx scopes (.index n.toNat row i) b₁ b₂)
      (hcolumn : Emits ctx scopes (.index n.toNat column j) b₂ b₃) (hbuild : entryIndex n i j b₃ = (o, b₄)) :
      Emits ctx scopes (.position container row (some column) o) b₁ b₄

/-- The condition of a loop, if there is one. -/
inductive Tests (ctx : Context) (scopes : Scopes) : Option Term → Option Operand → Builder → Builder → Prop
  | always {b} : Tests ctx scopes none none b b
  | condition {t c o b₁ b₂ b₃} (hvalue : Emits ctx scopes (.value t c) b₁ b₂) (htruth : Truth c o b₂ b₃) :
      Tests ctx scopes (some t) (some o) b₁ b₃

/-- What stands where statements are wanted. -/
inductive Phrase where
  | one (t : Term)
  | list (ts : List Term)
  | maybe (t : Option Term)

/-- What statements are generated as inside a number of loops, with the scopes and the builder before
and after. -/
inductive Issues (ctx : Context) : Nat → Phrase → Scopes → Builder → Scopes → Builder → Prop
  | absent {depth scopes b} : Issues ctx depth (.maybe none) scopes b scopes b
  | present {depth t scopes b scopes' b'} (h : Issues ctx depth (.one t) scopes b scopes' b') :
      Issues ctx depth (.maybe (some t)) scopes b scopes' b'
  | nil {depth scopes b} : Issues ctx depth (.list []) scopes b scopes b
  | cons {depth t ts scopes₁ b₁ scopes₂ b₂ scopes₃ b₃} (hhead : Issues ctx depth (.one t) scopes₁ b₁ scopes₂ b₂)
      (htail : Issues ctx depth (.list ts) scopes₂ b₂ scopes₃ b₃) :
      Issues ctx depth (.list (t :: ts)) scopes₁ b₁ scopes₃ b₃
  | block {depth id statements scopes b scopes' b'}
      (h : Issues ctx depth (.list statements) ([] :: scopes) b scopes' b') :
      Issues ctx depth (.one (.node id (.block statements))) scopes b scopes'.tail b'
  | conditional {depth id test thenBranch elseBranch c o thenBody elseBody u scopes₁ scopes₂ scopes₃
        b₁ b₂ b₃ b₄ b₅ b₆ b₇ b₈}
      (htest : Emits ctx scopes₁ (.value test c) b₁ b₂) (htruth : Truth c o b₂ b₃)
      (hthen : Issues ctx depth (.one thenBranch) scopes₁ (Builder.beginBlock b₃).2 scopes₂ b₄)
      (hthenEnd : Builder.endBlock b₄ = (thenBody, b₅))
      (helse : Issues ctx depth (.one elseBranch) scopes₂ (Builder.beginBlock b₅).2 scopes₃ b₆)
      (helseEnd : Builder.endBlock b₆ = (elseBody, b₇))
      (hbranch : Builder.emit (.branch o.reg thenBody elseBody) b₇ = (u, b₈)) :
      Issues ctx depth (.one (.node id (.conditional test thenBranch elseBranch))) scopes₁ b₁ scopes₃ b₈
  | loop {depth id kind start test step body o testBody loopBody stepBody u scopes₁ scopes₂ scopes₃ scopes₄
        b₁ b₂ b₃ b₄ b₅ b₆ b₇ b₈ b₉}
      (hstart : Issues ctx depth (.maybe start) ([] :: scopes₁) b₁ scopes₂ b₂)
      (htest : Tests ctx scopes₂ test o (Builder.beginBlock b₂).2 b₃)
      (htestEnd : Builder.endBlock b₃ = (testBody, b₄))
      (hbody : Issues ctx (depth + 1) (.one body) scopes₂ (Builder.beginBlock b₄).2 scopes₃ b₅)
      (hbodyEnd : Builder.endBlock b₅ = (loopBody, b₆))
      (hstep : Issues ctx depth (.maybe step) scopes₃ (Builder.beginBlock b₆).2 scopes₄ b₇)
      (hstepEnd : Builder.endBlock b₇ = (stepBody, b₈))
      (hloop : Builder.emit (.loop kind testBody (o.map Operand.reg) loopBody stepBody) b₈ = (u, b₉)) :
      Issues ctx depth (.one (.node id (.loop kind start test step body))) scopes₁ b₁ scopes₄.tail b₉
  | jump {depth id word scopes u b b'} (hdepth : word = .return ∨ 0 < depth)
      (hbuild : Builder.emit (.jump word) b = (u, b')) :
      Issues ctx depth (.one (.node id (.jump word))) scopes b scopes b'
  | declareZero {depth id ty nameId name o u scopes b₁ b₂ b₃} (hnew : scopes.find? name = none) (hty : ty ≠ .void)
      (halloc : Builder.alloc ty b₁ = (o, b₂)) (hbuild : Builder.emit (.const o.reg (.zero ty)) b₂ = (u, b₃)) :
      Issues ctx depth (.one (.node id (.declare ty (.node nameId (.localName name)) none))) scopes b₁
        (scopes.declare name o) b₃
  | declareValue {depth id ty nameId name start v w o u scopes b₁ b₂ b₃ b₄ b₅} (hnew : scopes.find? name = none)
      (hty : ty ≠ .void) (hstart : Emits ctx scopes (.value start v) b₁ b₂) (hcoerce : Coerced v ty w b₂ b₃)
      (halloc : Builder.alloc ty b₃ = (o, b₄)) (hbuild : Builder.assign o w b₄ = (u, b₅)) :
      Issues ctx depth (.one (.node id (.declare ty (.node nameId (.localName name)) (some start)))) scopes b₁
        (scopes.declare name o) b₅
  | expression {depth id content o scopes b b'} (h : Emits ctx scopes (.value (.node id content) o) b b') :
      Issues ctx depth (.one (.node id content)) scopes b scopes b'

end Generate

end Elementwise
