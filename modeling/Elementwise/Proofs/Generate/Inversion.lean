import Elementwise.Proofs.Diagnostic.Sink
import Elementwise.Proofs.Generate.Relation
import Elementwise.Proofs.Tree.Term

/-!
# Generation follows its rules

Whatever is generated without a new error is emitted by the rules. A step of generation either has
a result, or has reported an error; so a run without a new error has had a result at every step.
-/

namespace Elementwise.Generate

variable {α β : Type}

/-- A step that began with a number of errors and has no result has reported one; one with a result
ends as stated, and takes no error back. -/
def Ends (errors : Nat) (r : Option α × Generation) (Q : α → Generation → Prop) : Prop :=
  match r with
  | (some a, g) => errors ≤ g.sink.errors ∧ Q a g
  | (none, g) => errors < g.sink.errors

/-- A step has a result as stated, or reports an error. -/
def Gives (x : PartM α) (g : Generation) (Q : α → Generation → Prop) : Prop := Ends g.sink.errors (x.run g) Q

/-- A step that began with fewer errors. -/
theorem Ends.le {errors errors' : Nat} {r : Option α × Generation} {Q : α → Generation → Prop}
    (h : Ends errors' r Q) (hle : errors ≤ errors') : Ends errors r Q := by
  rcases r with ⟨_ | a, g⟩
  · exact Nat.lt_of_le_of_lt hle h
  · exact ⟨Nat.le_trans hle h.1, h.2⟩

namespace Gives

variable {g : Generation} {P : α → Generation → Prop} {Q : β → Generation → Prop}

theorem pure {a : α} (h : P a g) : Gives (pure a) g P := ⟨Nat.le_refl _, h⟩

theorem bind {x : PartM α} {f : α → PartM β} (hx : Gives x g P) (hf : ∀ a g', P a g' → Gives (f a) g' Q) :
    Gives (x >>= f) g Q := by
  have hrun : (x >>= f).run g = match x.run g with
      | (some a, g') => (f a).run g'
      | (none, g') => (none, g') := by
    change (match x.run g with
      | (r, g') => (match r with
        | some a => (f a).run
        | none => Pure.pure none : GenerateM (Option β)) g') = _
    rcases x.run g with ⟨_ | a, g'⟩ <;> rfl
  unfold Gives at hx ⊢
  rw [hrun]
  generalize x.run g = r at hx ⊢
  rcases r with ⟨_ | a, g'⟩
  · exact hx
  · exact (hf a g' hx.2).le hx.1

theorem mono {P' : α → Generation → Prop} {x : PartM α} (hx : Gives x g P) (h : ∀ a g', P a g' → P' a g') :
    Gives x g P' := by
  unfold Gives at hx ⊢
  generalize x.run g = r at hx ⊢
  rcases r with ⟨_ | a, g'⟩
  · exact hx
  · exact ⟨hx.1, h a g' hx.2⟩

/-- A step of building. -/
theorem emit {action : BuildM α} (h : ∀ a b', action g.builder = (a, b') → P a { g with builder := b' }) :
    Gives (emit action) g P :=
  ⟨Nat.le_refl _, h _ _ rfl⟩

theorem fail {ctx : Context} {kind : ErrorKind} {node : NodeId} {message : String} :
    Gives (fail ctx kind node message) g P :=
  Nat.lt_of_lt_of_eq (Nat.lt_succ_self _) (Sink.errors_push_error rfl).symm

theorem get : Gives (get : PartM Generation) g fun a g' => a = g ∧ g' = g := ⟨Nat.le_refl _, rfl, rfl⟩

/-- A diagnostic is recorded, and nothing else is done. -/
theorem push {d : Diagnostic} :
    Gives (OptionT.lift (push d)) g fun _ g' => g' = { g with sink := g.sink.push d } :=
  ⟨Sink.errors_le_push, rfl⟩

end Gives

/-- Generation inside given scopes and a given number of loops. -/
def At (scopes : Scopes) (depth : Nat) (g : Generation) : Prop := g.scopes = scopes ∧ g.loopDepth = depth

section

variable {ctx : Context} {scopes : Scopes} {depth : Nat} {g : Generation} {id : NodeId}

variable {column : Option Term} {index : Term} {name : String} {ty : Ty} {v : Operand}

/-- Steps of building on the builders before and after, inside the same scopes. -/
def Built (scopes : Scopes) (depth : Nat) (g : Generation) (R : α → Builder → Builder → Prop) :
    α → Generation → Prop :=
  fun a g' => R a g.builder g'.builder ∧ At scopes depth g'

/-- The slot of a field that is registered with its type. -/
theorem gives_fieldSlot {write : Bool} :
    Gives (fieldSlot ctx id name ty write) g fun slot g' =>
      (∃ entry, ctx.registry.get? name = some entry ∧ entry.ty = ty ∧ (write = true → entry.writable = true) ∧
        slot = entry.index) ∧ g' = g := by
  unfold fieldSlot
  cases hentry : ctx.registry.get? name with
  | none => exact .fail
  | some entry =>
    dsimp only
    split
    · exact .fail
    · next hty =>
      split
      · exact .fail
      · next hwrite =>
        refine .pure ⟨⟨entry, rfl, Decidable.not_not.mp hty, ?_, rfl⟩, rfl⟩
        simpa using hwrite

section

variable (h : At scopes depth g)

include h

/-- A step of building. -/
theorem gives_build {action : BuildM α} :
    Gives (emit action) g (Built scopes depth g fun a b b' => action b = (a, b')) := .emit fun _ _ hbuild => ⟨hbuild, h⟩

/-- The operand of a local in scope. -/
theorem gives_localOperand : Gives (localOperand ctx id name) g fun o g' => scopes.find? name = some o ∧ g' = g := by
  refine Gives.get.bind fun a g' ⟨ha, hg⟩ => ?_
  subst ha hg
  have hfind : lookupLocal? name g' = scopes.find? name := by rw [← h.1]; rfl
  rw [hfind]
  cases scopes.find? name with
  | none => exact .fail
  | some o => exact .pure ⟨rfl, rfl⟩

/-- An operand converted to a type that it converts to. -/
theorem gives_coerce : Gives (coerce ctx v ty id) g (Built scopes depth g (Coerced v ty)) := by
  unfold coerce
  split
  · next hconverts => exact .emit fun o b' hbuild => ⟨⟨hconverts, hbuild⟩, h⟩
  · exact .fail

/-- A scalar as a truth value. -/
theorem gives_truth {role : String} : Gives (truth ctx role v id) g (Built scopes depth g (Truth v)) := by
  unfold truth
  split
  · next hscalar => exact .emit fun o b' hbuild => ⟨⟨hscalar, hbuild⟩, h⟩
  · exact .fail

/-- The constant of a name of the host. -/
theorem gives_externalValue :
    Gives (externalValue ctx id name ty) g
      (Built scopes depth g fun o b b' => ∃ v, HostValue ctx.custom name ty v ∧ Builder.constant v b = (o, b')) := by
  unfold externalValue
  cases hvalue : ctx.custom.get? name with
  | none =>
    refine Gives.push.bind fun _ g' hg' => ?_
    subst hg'
    exact .emit fun o b' hbuild => ⟨⟨_, .inl ⟨hvalue, rfl⟩, hbuild⟩, h⟩
  | some value =>
    dsimp only
    split
    · exact .fail
    · next hty =>
      exact .emit fun o b' hbuild => ⟨⟨value, .inr ⟨hvalue, Decidable.not_not.mp hty⟩, hbuild⟩, h⟩

/-- An operator on operands that it fits. -/
theorem gives_binaryValues {op : BinaryOp} {l r : Operand} :
    Gives (binaryValues ctx id op l r) g (Built scopes depth g (Operated op l r)) := by
  unfold binaryValues
  split
  · exact .fail
  · next common hcommon =>
    split at hcommon
    · next hfit => exact .emit fun o b' hbuild => ⟨⟨common, hfit, hcommon, hbuild⟩, h⟩
    · cases hcommon

/-- An operator on an operand that it fits. -/
theorem gives_unaryValue {op : UnaryOp} :
    Gives (unaryValue ctx id op v) g (Built scopes depth g fun o b b' =>
      ∃ ty, unaryTy? op v.ty = some ty ∧ applyUnary op v ty b = (o, b')) := by
  unfold unaryValue
  split
  · exact .fail
  · next ty hty => exact .emit fun o b' hbuild => ⟨⟨ty, hty, hbuild⟩, h⟩

/-- A step of a place that holds a number. -/
theorem gives_stepPlace {op : CrementOp} {post : Bool} {p : Place} :
    Gives (stepPlace ctx id op post p) g (Built scopes depth g fun o b b' =>
      p.ty.isScalar = true ∧ p.ty ≠ .bool ∧ step op post p b = (o, b')) := by
  unfold stepPlace
  split
  · exact .fail
  · next hnumber =>
    simp only [Bool.or_eq_true, Bool.not_eq_true', decide_eq_true_eq, not_or, Bool.not_eq_false] at hnumber
    exact .emit fun o b' hbuild => ⟨⟨hnumber.1, hnumber.2, hbuild⟩, h⟩

/-- An array of scalars. -/
theorem gives_packValues {items : List Operand} :
    Gives (packValues ctx id items) g (Built scopes depth g fun o b b' =>
      ∃ ty, packTy? (items.map Operand.ty) = some ty ∧ applyPack items ty b = (o, b')) := by
  unfold packValues
  split
  · exact .fail
  · next ty hty => exact .emit fun o b' hbuild => ⟨⟨ty, hty, hbuild⟩, h⟩

/-- A term is generated as a part, wherever generation is. -/
def GeneratedAs (ctx : Context) (scopes : Scopes) (depth : Nat) (x : PartM α) (part : α → Part) : Prop :=
  ∀ g, At scopes depth g → Gives x g (Built scopes depth g fun a => Emits ctx scopes (part a))

/-- An index that is in range where it is literal. -/
theorem gives_indexOperand {limit : Nat} {t : Term} {generate : PartM Operand}
    (hgenerate : GeneratedAs ctx scopes depth generate (.value t)) :
    Gives (indexOperand ctx limit t generate) g (Built scopes depth g fun o => Emits ctx scopes (.index limit t o)) := by
  have hrest (hrange : ∀ n, literalIndex? t = some n → 0 ≤ n ∧ n < limit) :
      Gives (do
        let operand ← generate
        if operand.ty.isIntegerScalar then emit (Builder.convert operand .int32)
        else Generate.fail ctx .semantic t.id ("array index must be an integer, found " ++ operand.ty.text)) g
        (Built scopes depth g fun o => Emits ctx scopes (.index limit t o)) := by
    refine (hgenerate g h).bind fun v g₁ ⟨hvalue, h₁⟩ => ?_
    split
    · next hinteger => exact .emit fun o b' hbuild => ⟨.index hrange hvalue hinteger hbuild, h₁⟩
    · exact .fail
  unfold indexOperand
  split
  · next n hn =>
    split
    · exact Gives.fail.bind (P := fun _ _ => False) fun _ _ hfalse => hfalse.elim
    · next hin =>
      refine hrest fun n' hn' => ?_
      obtain rfl : n = n' := Option.some.inj (hn.symm.trans hn')
      omega
  · next hn => exact hrest fun n' hn' => absurd (hn.symm.trans hn') (by simp)

/-- The position of a component. -/
theorem gives_componentIndex (container : Operand)
    (hindex : GeneratedAs ctx scopes depth (expr ctx index) (.value index))
    (hcolumn : ∀ t ∈ column, GeneratedAs ctx scopes depth (expr ctx t) (.value t)) :
    Gives (componentIndex ctx id container (index, expr ctx index) (column.map fun t => (t, expr ctx t))) g
      (Built scopes depth g fun o => Emits ctx scopes (.position container index column o)) := by
  unfold componentIndex
  cases column with
  | none =>
    cases hty : container.ty with
    | vector kind n => exact (gives_indexOperand h hindex).mono fun o g' ho => ⟨.vectorPosition hty ho.1, ho.2⟩
    | matrix kind n => exact (gives_indexOperand h hindex).mono fun o g' ho => ⟨.matrixPosition hty ho.1, ho.2⟩
    | _ => exact .fail
  | some column =>
    cases hty : container.ty with
    | matrix kind n =>
      refine (gives_indexOperand h hindex).bind fun i g₁ ⟨hi, h₁⟩ => ?_
      refine (gives_indexOperand h₁ (hcolumn column rfl)).bind fun j g₂ ⟨hj, h₂⟩ => ?_
      exact .emit fun o b' hbuild => ⟨.entryPosition hty hi hj hbuild, h₂⟩
    | _ => exact .fail

/-- A call of a group that is there, with operands that an overload takes. -/
theorem gives_call {args : List Term} (hargs : GeneratedAs ctx scopes depth (exprs ctx args) (.values args)) :
    Gives (do
      let group ← callee ctx id name
      let values ← exprs ctx args
      callValues ctx id name group values) g
      (Built scopes depth g fun o => Emits ctx scopes (.value (.node id (.call name args)) o)) := by
  have hcallee : Gives (callee ctx id name) g fun group g' =>
      ctx.library.get? name = some group ∧ (group.volumeOnly = true → ctx.registry.target ≠ .points) ∧ g' = g := by
    unfold callee
    split
    · exact .fail
    · next group hgroup =>
      split
      · exact .fail
      · next hvolume => exact .pure ⟨hgroup, by simpa using hvolume, rfl⟩
  refine hcallee.bind fun group g' ⟨hgroup, hvolume, hg'⟩ => ?_
  subst hg'
  refine (hargs g' h).bind fun values g₁ ⟨hvalues, h₁⟩ => ?_
  unfold callValues
  split
  · next e he =>
    exact Nat.lt_of_lt_of_eq (Nat.lt_succ_self _) (Sink.errors_push_error (by
      unfold unresolved; dsimp only; split <;> rfl)).symm
  · next resolution hresolution =>
    refine (gives_build h₁).bind fun args' g₂ ⟨hconvert, h₂⟩ => ?_
    have hresolve : Resolved ctx name values resolution.function args' g₁.builder g₂.builder :=
      ⟨group, resolution, hgroup, hvolume, hresolution, rfl, hconvert⟩
    split
    · next body hbody => exact .emit fun o b' hbuild => ⟨.native hvalues hresolve hbody hbuild, h₂⟩
    · next generator hgenerator =>
      refine (gives_build h₂).bind fun r g₃ ⟨hrun, h₃⟩ => ?_
      cases r with
      | some o =>
        dsimp only
        split
        · next hret => exact .pure ⟨.inline hvalues hresolve hgenerator hrun hret, h₃⟩
        · exact .fail
      | none =>
        dsimp only
        split
        · next hret =>
          exact .emit fun o b' halloc => ⟨.inlineVoid hvalues hresolve hgenerator hrun hret halloc, h₃⟩
        · exact .fail

end

/-- A step in a block of its own, and what is done with the block. -/
theorem Gives.inBlock {x : PartM Unit} {k : List Instr → PartM β} {P : Unit → Generation → Prop}
    {Q : β → Generation → Prop} (hx : Gives x { g with builder := (Builder.beginBlock g.builder).2 } P)
    (hk : ∀ a g', P a g' → Gives (k (Builder.endBlock g'.builder).1)
      { g' with builder := (Builder.endBlock g'.builder).2 } Q) :
    Gives (do
      let (done, body) ← OptionT.lift (inBlock x.run)
      match done with
      | none => failure
      | some () => k body) g Q := by
  have hrun : (do
      let (done, body) ← OptionT.lift (Generate.inBlock x.run)
      match done with
      | none => failure
      | some () => k body : PartM β).run g =
      (match x.run { g with builder := (Builder.beginBlock g.builder).2 } with
        | (r, g') => (match r with
          | none => failure
          | some () => k (Builder.endBlock g'.builder).1 : PartM β).run
            { g' with builder := (Builder.endBlock g'.builder).2 }) := rfl
  unfold Gives at hx ⊢
  rw [hrun]
  generalize x.run { g with builder := (Builder.beginBlock g.builder).2 } = r at hx ⊢
  rcases r with ⟨_ | a, g'⟩
  · exact hx
  · exact (hk a g' hx.2).le hx.1

/-- A logical operator, with the right operand in a block of its own. -/
theorem gives_logical {op : BinaryOp} {left right : Term} (hop : op.opClass = .logical) (h : At scopes depth g)
    (hleft : GeneratedAs ctx scopes depth (expr ctx left) (.value left))
    (hright : GeneratedAs ctx scopes depth (expr ctx right) (.value right)) :
    Gives (logical ctx op (left.id, expr ctx left) (right.id, expr ctx right)) g
      (Built scopes depth g fun o => Emits ctx scopes (.value (.node id (.binary op left right)) o)) := by
  refine (hleft g h).bind ?_
  rintro l g₁ ⟨hl, h₁⟩
  refine (gives_truth h₁).bind ?_
  rintro lc g₂ ⟨hlc, h₂⟩
  refine (gives_build h₂).bind ?_
  rintro result g₃ ⟨hresult, h₃⟩
  refine (gives_build h₃).bind ?_
  rintro u g₄ ⟨hassign, h₄⟩
  let block : Generation := { g₄ with builder := (Builder.beginBlock g₄.builder).2 }
  let branches (body : List Instr) : List Instr × List Instr := if op = .and then (body, []) else ([], body)
  let rest (body : List Instr) : PartM Operand := do
    emit (Builder.emit (.branch lc.reg (branches body).1 (branches body).2))
    return result
  refine Gives.inBlock (k := rest) (P := Built scopes depth block fun _ b b' => ∃ r rc b₁ b₂ u,
    Emits ctx scopes (.value right r) b b₁ ∧ Truth r rc b₁ b₂ ∧ Builder.assign result rc b₂ = (u, b')) ?_ ?_
  · refine (hright block h₄).bind ?_
    rintro r g₅ ⟨hr, h₅⟩
    refine (gives_truth h₅).bind ?_
    rintro rc g₆ ⟨hrc, h₆⟩
    exact .emit fun u b' hbuild => ⟨⟨r, rc, _, _, u, hr, hrc, hbuild⟩, h₆⟩
  · rintro _ g₇ ⟨⟨r, rc, b₁, b₂, _, hr, hrc, hreassign⟩, h₇⟩
    have hrest (body : List Instr) : rest body = do
        emit (Builder.emit (.branch lc.reg (if op = .and then body else []) (if op = .and then [] else body)))
        return result := by
      by_cases hand : op = .and <;> simp only [rest, branches, hand, if_true, if_false]
    rw [hrest]
    refine Gives.bind (.emit fun u b' hbranch => ?_) fun _ g₈ h₈ => .pure h₈
    exact ⟨.logical hop hl hlc hresult hassign hr hrc hreassign rfl hbranch, h₇⟩

/-- Terms one after another. -/
theorem generatedAs_exprs {ts : List Term}
    (hts : ∀ t ∈ ts, GeneratedAs ctx scopes depth (expr ctx t) (.value t)) :
    GeneratedAs ctx scopes depth (exprs ctx ts) (.values ts) := by
  intro g h
  induction ts generalizing g with
  | nil => exact .pure ⟨.nil, h⟩
  | cons t ts ih =>
    refine (hts t List.mem_cons_self g h).bind fun o g₁ ⟨ho, h₁⟩ => ?_
    refine (ih (fun s hs => hts s (List.mem_cons_of_mem _ hs)) g₁ h₁).bind fun os g₂ ⟨hos, h₂⟩ => ?_
    exact .pure ⟨.cons ho hos, h₂⟩

/-- An assignment to a place. -/
theorem gives_assign {target value : Term} {compound : Option BinaryOp} (h : At scopes depth g)
    (htarget : GeneratedAs ctx scopes depth (place ctx target) (.place target))
    (hvalue : GeneratedAs ctx scopes depth (expr ctx value) (.value value)) :
    Gives (do
      let p ← place ctx target
      let v ← expr ctx value
      assignPlace ctx id value.id compound p v) g
      (Built scopes depth g fun o => Emits ctx scopes (.value (.node id (.assign target value compound)) o)) := by
  refine (htarget g h).bind fun p g₁ ⟨hp, h₁⟩ => ?_
  refine (hvalue g₁ h₁).bind fun v g₂ ⟨hv, h₂⟩ => ?_
  cases compound with
  | none =>
    refine Gives.bind (.pure (P := fun w g' => w = v ∧ g' = g₂) ⟨rfl, rfl⟩) fun w g' ⟨hw, hg'⟩ => ?_
    subst hw hg'
    refine (gives_coerce h₂).bind fun o g₃ ⟨ho, h₃⟩ => ?_
    refine Gives.bind (.emit fun u b' hstore => ?_) fun _ _ h₄ => .pure h₄
    exact ⟨.assign hp hv ho hstore, h₃⟩
  | some op =>
    refine (gives_build h₂).bind fun current g₃ ⟨hload, h₃⟩ => ?_
    refine (gives_binaryValues h₃).bind fun w g₄ ⟨hw, h₄⟩ => ?_
    refine (gives_coerce h₄).bind fun o g₅ ⟨ho, h₅⟩ => ?_
    refine Gives.bind (.emit fun u b' hstore => ?_) fun _ _ h₆ => .pure h₆
    exact ⟨.compound hp hv hload hw ho hstore, h₅⟩

/-- A component as a value. -/
theorem exprNode_unpack {array : Term} :
    exprNode ctx id (.unpack array index column) = (do
      let container ← expr ctx array
      let i ← componentIndex ctx id container (index, expr ctx index) (column.map fun t => (t, expr ctx t))
      emit (Builder.extract container i) : PartM Operand) := by
  cases column <;> rw [exprNode] <;> rfl

/-- A component as a place. -/
theorem place_unpack {array : Term} :
    place ctx (.node id (.unpack array index column)) = (do
      let base ← place ctx array
      let container ← emit (load base)
      let i ← componentIndex ctx id container (index, expr ctx index) (column.map fun t => (t, expr ctx t))
      return .component base container i : PartM Place) := by
  cases column <;> rw [place] <;> rfl

/-- A complete term is generated by the rules, as a value and as a place. -/
theorem generatedAs (t : Term) (hcomplete : t.Complete) :
    GeneratedAs ctx scopes depth (expr ctx t) (.value t) ∧
      GeneratedAs ctx scopes depth (place ctx t) (.place t) := by
  induction t using Term.children_induction with
  | missing id => exact absurd hcomplete Term.Complete.not_missing
  | node id content ih =>
    replace ih {c : Term} (hc : c ∈ content.children) := ih c hc (hcomplete.below hc)
    constructor
    · intro g h
      rw [expr]
      cases content with
      | value l => exact .emit fun o b' hbuild => ⟨.literal hbuild, h⟩
      | localName name =>
        refine (gives_localOperand h).mono ?_
        rintro o g' ⟨hfind, hg'⟩
        subst hg'
        exact ⟨.localName hfind, h⟩
      | field name ty inferred writable =>
        refine gives_fieldSlot.bind ?_
        rintro slot g' ⟨⟨entry, hentry, hty, _, hslot⟩, hg'⟩
        subst hty hslot hg'
        exact .emit fun o b' hbuild => ⟨.field hentry hbuild, h⟩
      | external name ty =>
        refine (gives_externalValue h).mono ?_
        rintro o g' ⟨⟨v, hv, hbuild⟩, h'⟩
        exact ⟨.external hv hbuild, h'⟩
      | binary op left right =>
        have hleft := (ih (c := left) (by simp)).1
        have hright := (ih (c := right) (by simp)).1
        rw [exprNode]
        split
        · next hop => exact gives_logical hop h hleft hright
        · next hop =>
          refine (hleft g h).bind ?_
          rintro l g₁ ⟨hl, h₁⟩
          refine (hright g₁ h₁).bind ?_
          rintro r g₂ ⟨hr, h₂⟩
          refine (gives_binaryValues h₂).mono ?_
          rintro o g₃ ⟨ho, h₃⟩
          exact ⟨.binary hop hl hr ho, h₃⟩
      | unary op operand =>
        refine ((ih (c := operand) (by simp)).1 g h).bind ?_
        rintro v g₁ ⟨hv, h₁⟩
        refine (gives_unaryValue h₁).mono ?_
        rintro o g₂ ⟨⟨ty, hty, hbuild⟩, h₂⟩
        exact ⟨.unary hv hty hbuild, h₂⟩
      | crement op post target =>
        refine ((ih (c := target) (by simp)).2 g h).bind ?_
        rintro p g₁ ⟨hp, h₁⟩
        refine (gives_stepPlace h₁).mono ?_
        rintro o g₂ ⟨⟨hscalar, hbool, hbuild⟩, h₂⟩
        exact ⟨.crement hp hscalar hbool hbuild, h₂⟩
      | assign target value compound =>
        exact gives_assign h (ih (c := target) (by simp)).2
          (ih (c := value) (by simp)).1
      | cast ty operand =>
        refine ((ih (c := operand) (by simp)).1 g h).bind ?_
        rintro v g₁ ⟨hv, h₁⟩
        split
        · next hconverts => exact .emit fun o b' hbuild => ⟨.cast hv ⟨hconverts, hbuild⟩, h₁⟩
        · exact .fail
      | call name args => exact gives_call h (generatedAs_exprs fun t ht => (ih ht).1)
      | pack items =>
        refine (generatedAs_exprs (fun t ht => (ih ht).1) g h).bind ?_
        rintro values g₁ ⟨hvalues, h₁⟩
        refine (gives_packValues h₁).mono ?_
        rintro o g₂ ⟨⟨ty, hty, hbuild⟩, h₂⟩
        exact ⟨.pack hvalues hty hbuild, h₂⟩
      | unpack array index column =>
        have hcolumn : ∀ t ∈ column, GeneratedAs ctx scopes depth (expr ctx t) (.value t) :=
          fun t ht => (ih (by simp_all)).1
        rw [exprNode_unpack]
        refine ((ih (c := array) (by simp)).1 g h).bind ?_
        rintro container g₁ ⟨hc, h₁⟩
        refine (gives_componentIndex h₁ container (ih (c := index) (by simp)).1 hcolumn).bind ?_
        rintro i g₂ ⟨hi, h₂⟩
        exact .emit fun o b' hbuild => ⟨.unpack hc hi hbuild, h₂⟩
      | block | conditional | loop | jump | declare => exact .fail
    · intro g h
      cases content with
      | localName name =>
        refine (gives_localOperand h).bind ?_
        rintro o g' ⟨hfind, hg'⟩
        subst hg'
        exact .pure ⟨.placeLocal hfind, h⟩
      | field name ty inferred writable =>
        refine gives_fieldSlot.bind ?_
        rintro slot g' ⟨⟨entry, hentry, hty, hwritable, hslot⟩, hg'⟩
        subst hty hslot hg'
        exact .pure ⟨.placeField hentry (hwritable rfl), h⟩
      | unpack array index column =>
        have hcolumn : ∀ t ∈ column, GeneratedAs ctx scopes depth (expr ctx t) (.value t) :=
          fun t ht => (ih (by simp_all)).1
        rw [place_unpack]
        refine ((ih (c := array) (by simp)).2 g h).bind ?_
        rintro base g₁ ⟨hbase, h₁⟩
        refine (gives_build h₁).bind ?_
        rintro container g₂ ⟨hload, h₂⟩
        refine (gives_componentIndex h₂ container (ih (c := index) (by simp)).1 hcolumn).bind ?_
        rintro i g₃ ⟨hi, h₃⟩
        exact .pure ⟨.placeComponent hbase hload hi, h₃⟩
      | _ => rw [place] <;> first | exact .fail | simp

end

end Elementwise.Generate
