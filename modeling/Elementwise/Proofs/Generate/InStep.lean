import Elementwise.Proofs.Function.Results
import Elementwise.Proofs.Generate.Ensures
import Elementwise.Proofs.Perform.Actions

/-!
# Generation of terms that match

Generation looks at the names and types of the locals in scope, at the number of loops around and at whether
warnings are promoted, never at registers or at code. Two generations that agree on these stay in step while
they generate terms that match: both have a result of the same type or neither has one, and if one of them
has reported an error, so has the other. A term matches another of the same shape if their children match.
-/

namespace Elementwise

/-- The names and types of the locals in scope. -/
def Scopes.types (scopes : Scopes) : List (List (String × Ty)) :=
  scopes.map fun scope => scope.map fun entry => (entry.1, entry.2.ty)

/-- The type of a local depends on the names and types in scope. -/
theorem Scopes.find?_types (scopes : Scopes) (name : String) :
    (scopes.find? name).map Operand.ty = scopes.types.findSome? fun scope => scope.lookup name := by
  have hscope (scope : List (String × Operand)) :
      (scope.lookup name).map Operand.ty = (scope.map fun entry => (entry.1, entry.2.ty)).lookup name := by
    induction scope with
    | nil => rfl
    | cons entry scope ih =>
      rw [List.map_cons, List.lookup_cons, List.lookup_cons]
      split
      · rfl
      · exact ih
  unfold find? types
  induction scopes with
  | nil => rfl
  | cons scope scopes ih =>
    rw [List.map_cons, List.findSome?_cons, List.findSome?_cons, ← ih, ← hscope]
    cases scope.lookup name <;> rfl

/-- Two generations with the same names and types in scope, inside the same number of loops. Either both have
reported an error since they had the given numbers, or neither has. -/
structure Generation.InStep (errors errors' : Nat) (g g' : Generation) : Prop where
  scopes : Scopes.types g'.scopes = Scopes.types g.scopes
  depth : g'.loopDepth = g.loopDepth
  promote : g'.sink.promote = g.sink.promote
  errors : (g.sink.errors = errors ∧ g'.sink.errors = errors') ∨ (errors < g.sink.errors ∧ errors' < g'.sink.errors)

namespace Generation.InStep

variable {errors errors' : Nat} {g g' : Generation}

/-- The code does not matter. -/
theorem build (h : g.InStep errors errors' g') (b b' : Builder) :
    ({ g with builder := b } : Generation).InStep errors errors' { g' with builder := b' } :=
  ⟨h.scopes, h.depth, h.promote, h.errors⟩

/-- A diagnostic of the same severity is recorded on both sides. -/
theorem push (h : g.InStep errors errors' g') {d d' : Diagnostic} (hd : d'.severity = d.severity) :
    ({ g with sink := g.sink.push d } : Generation).InStep errors errors' { g' with sink := g'.sink.push d' } := by
  refine ⟨h.scopes, h.depth, ?_, ?_⟩
  · exact Sink.promote_push.trans (h.promote.trans Sink.promote_push.symm)
  · have herrors := h.errors
    rw [Sink.errors_push, Sink.errors_push, hd, h.promote]
    split <;> omega

/-- A local of the same name and type is declared on both sides. -/
theorem declare (h : g.InStep errors errors' g') (name : String) {o o' : Operand} (ho : o'.ty = o.ty) :
    (Generate.declareLocal name o g).2.InStep errors errors' (Generate.declareLocal name o' g').2 := by
  rw [Generate.declareLocal_eq, Generate.declareLocal_eq]
  refine ⟨?_, h.depth, h.promote, h.errors⟩
  have hscopes := h.scopes
  cases hg : g.scopes <;> cases hg' : g'.scopes <;> rw [hg, hg'] at hscopes
  · rfl
  · cases hscopes
  · cases hscopes
  · obtain ⟨hscope, hrest⟩ := List.cons.inj hscopes
    exact congrArg₂ List.cons (congrArg₂ List.cons (congrArg (Prod.mk name) ho) hscope) hrest

end Generation.InStep

namespace Generate

variable {α β γ δ : Type} {ctx : Context} {id id' : NodeId}

variable {p p' : Place}

/-- Steps that keep generations in step, with related results. -/
def Matches (R : α → β → Prop) (x : GenerateM α) (y : GenerateM β) : Prop :=
  ∀ errors errors' g g', Generation.InStep errors errors' g g' →
    R (x g).1 (y g').1 ∧ (x g).2.InStep errors errors' (y g').2

/-- Steps that both have a result or both have none, and keep generations in step. -/
def PartMatches (R : α → β → Prop) (x : PartM α) (y : PartM β) : Prop := Matches (Option.Rel R) x.run y.run

/-- Operands of the same type. -/
def SameTy (o o' : Operand) : Prop := o'.ty = o.ty

namespace Matches

variable {R : α → β → Prop} {S : γ → δ → Prop}

variable {x : GenerateM α} {y : GenerateM β}

theorem pure {a : α} {b : β} (h : R a b) : Matches R (Pure.pure a) (Pure.pure b) := fun _ _ _ _ hg => ⟨h, hg⟩

theorem bind {k : α → GenerateM γ} {l : β → GenerateM δ} (hx : Matches R x y)
    (hk : ∀ a b, R a b → Matches S (k a) (l b)) : Matches S (x >>= k) (y >>= l) := by
  intro errors errors' g g' hg
  obtain ⟨hresult, hnext⟩ := hx errors errors' g g' hg
  exact hk _ _ hresult errors errors' _ _ hnext

theorem get : Matches (fun g g' : Generation => ∃ errors errors', g.InStep errors errors' g') get get :=
  fun errors errors' _ _ hg => ⟨⟨errors, errors', hg⟩, hg⟩

theorem modify {f f' : Generation → Generation}
    (h : ∀ errors errors' g g', Generation.InStep errors errors' g g' → (f g).InStep errors errors' (f' g')) :
    Matches (fun _ _ => True) (modify f) (modify f') :=
  fun errors errors' g g' hg => ⟨trivial, h errors errors' g g' hg⟩

theorem pushScope : Matches (fun _ _ => True) pushScope pushScope :=
  modify fun _ _ _ _ hg => ⟨congrArg (List.cons []) hg.scopes, hg.depth, hg.promote, hg.errors⟩

theorem popScope : Matches (fun _ _ => True) popScope popScope := by
  refine modify fun _ _ g g' hg => ⟨?_, hg.depth, hg.promote, hg.errors⟩
  have htail := congrArg List.tail hg.scopes
  rwa [Scopes.types, Scopes.types, ← List.map_tail, ← List.map_tail] at htail

/-- A step of building, with results that are related whatever was built before. -/
theorem build {action : BuildM α} {action' : BuildM β} (h : ∀ b b', R (action b).1 (action' b').1) :
    Matches R (build action) (build action') :=
  fun _ _ g g' hg => ⟨h g.builder g'.builder, hg.build _ _⟩

theorem push {d d' : Diagnostic} (h : d'.severity = d.severity) : Matches (fun _ _ => True) (push d) (push d') :=
  modify fun _ _ _ _ hg => hg.push h

/-- A step in a block of its own. -/
theorem inBlock (hx : Matches R x y) : Matches (fun r r' => R r.1 r'.1) (inBlock x) (inBlock y) :=
  (build fun _ _ => trivial : Matches (fun _ _ => True) _ _).bind fun _ _ _ => hx.bind fun _ _ hresult =>
    (build fun _ _ => trivial : Matches (fun _ _ => True) _ _).bind fun _ _ _ => pure hresult

/-- A step one loop deeper. -/
theorem inLoop (hx : Matches R x y) : Matches R (inLoop x) (inLoop y) := by
  refine (modify fun _ _ _ _ hg => ?_).bind fun _ _ _ => hx.bind fun _ _ hresult =>
    (modify fun _ _ _ _ hg => ?_).bind fun _ _ _ => pure hresult
  · exact ⟨hg.scopes, congrArg (· + 1) hg.depth, hg.promote, hg.errors⟩
  · exact ⟨hg.scopes, congrArg (· - 1) hg.depth, hg.promote, hg.errors⟩

end Matches

namespace PartMatches

variable {R : α → β → Prop} {S : γ → δ → Prop}

theorem pure {a : α} {b : β} (h : R a b) : PartMatches R (Pure.pure a) (Pure.pure b) := Matches.pure (.some h)

theorem failure : PartMatches R failure failure := Matches.pure .none

theorem bind {x : PartM α} {y : PartM β} {k : α → PartM γ} {l : β → PartM δ} (hx : PartMatches R x y)
    (hk : ∀ a b, R a b → PartMatches S (k a) (l b)) : PartMatches S (x >>= k) (y >>= l) := by
  unfold PartMatches
  rw [OptionT.run_bind, OptionT.run_bind]
  refine Matches.bind hx fun r r' hr => ?_
  cases hr with
  | none => exact .pure .none
  | some h => exact hk _ _ h

theorem lift {x : GenerateM α} {y : GenerateM β} (hx : Matches R x y) :
    PartMatches R (OptionT.lift x) (OptionT.lift y) :=
  Matches.bind hx fun _ _ h => .pure (.some h)

theorem emit {action : BuildM α} {action' : BuildM β} (h : ∀ b b', R (action b).1 (action' b').1) :
    PartMatches R (emit action) (emit action') := lift (.build h)

/-- A step of building that gives what is stated on each side. -/
theorem emitGives {P : α → Prop} {Q : β → Prop} {action : BuildM α} {action' : BuildM β} (h : BuildM.Gives action P)
    (h' : BuildM.Gives action' Q) : PartMatches (fun a b => P a ∧ Q b) (Generate.emit action) (Generate.emit action') :=
  emit fun b b' => ⟨h b, h' b'⟩

/-- A step of building whose result has a type that is known beforehand. -/
theorem emitTy {action action' : BuildM Operand} (ty : Ty) (h : BuildM.Gives action fun o => o.ty = ty)
    (h' : BuildM.Gives action' fun o => o.ty = ty) : PartMatches SameTy (Generate.emit action) (Generate.emit action') :=
  emit fun b b' => (h' b').trans (h b).symm

theorem get : PartMatches (fun g g' : Generation => ∃ errors errors', g.InStep errors errors' g') get get :=
  lift .get

theorem fail {kind kind' : ErrorKind} {message message' : String} :
    PartMatches R (fail ctx kind id message) (fail ctx kind' id' message') := by
  have hreport : Matches (fun _ _ => True) (report ctx kind id message) (report ctx kind' id' message') := .push rfl
  exact (lift hreport).bind fun _ _ _ => failure

theorem fail_bind {kind kind' : ErrorKind} {message message' : String} {k : α → PartM γ} {l : β → PartM δ} :
    PartMatches S (Generate.fail ctx kind id message >>= k) (Generate.fail ctx kind' id' message' >>= l) :=
  bind (R := fun _ _ => False) fail fun _ _ h => h.elim

end PartMatches

/-! ## The steps of generation -/

variable {o o' l l' r r' : Operand}

theorem gives_convert (o : Operand) (goal : Ty) : BuildM.Gives (Builder.convert o goal) fun o => o.ty = goal := by
  intro b
  unfold Builder.convert
  split
  · next h => exact h
  · rfl

theorem gives_load (p : Place) : BuildM.Gives (load p) fun o => o.ty = p.ty := fun _ => load_ty rfl

theorem gives_step (op : CrementOp) (post : Bool) (p : Place) : BuildM.Gives (step op post p) fun o => o.ty = p.ty := by
  intro b
  cases post <;> rfl

/-- The operands of a call have the types of the parameters, if there are as many. -/
theorem gives_convertArguments {s : Signature} (hfixed : s.variadic = false) {i : Nat} {values : List Operand}
    (hcount : i + values.length = s.params.length) :
    BuildM.Gives (convertArguments s i values) fun args => args.map Operand.ty = s.params.drop i := by
  induction values generalizing i with
  | nil => exact .pure (by simpa using Nat.le_of_eq hcount.symm)
  | cons v rest ih =>
    rw [List.length_cons] at hcount
    have hi : i < s.params.length := by omega
    have hparam : s.param? i = some (s.params[i], s.readonly[i]?.getD false) := by
      simp [Signature.param?, hfixed, hi]
    rw [convertArguments, hparam]
    refine (gives_convert v s.params[i]).bind fun a ha => ?_
    have hrest := ih (i := i + 1) (by omega)
    refine hrest.bind fun args hargs => .pure ?_
    rw [List.map_cons, hargs, ha, List.drop_eq_getElem_cons hi]

theorem partMatches_localOperand (name : String) :
    PartMatches SameTy (localOperand ctx id name) (localOperand ctx id' name) := by
  refine PartMatches.get.bind fun g g' ⟨_, _, hg⟩ => ?_
  have hfind := (Scopes.find?_types g'.scopes name).trans (hg.scopes ▸ (Scopes.find?_types g.scopes name).symm)
  change Option.map _ (lookupLocal? name g') = Option.map _ (lookupLocal? name g) at hfind
  generalize lookupLocal? name g = found at hfind
  generalize lookupLocal? name g' = found' at hfind
  cases found <;> cases found'
  · exact .fail
  · cases hfind
  · cases hfind
  · exact .pure (Option.some.inj hfind)

theorem partMatches_coerce (ho : SameTy o o') (goal : Ty) :
    PartMatches SameTy (coerce ctx o goal id) (coerce ctx o' goal id') := by
  unfold coerce
  rw [ho]
  split
  · exact .emitTy goal (gives_convert o goal) (gives_convert o' goal)
  · exact .fail

theorem partMatches_truth (role : String) (ho : SameTy o o') :
    PartMatches SameTy (truth ctx role o id) (truth ctx role o' id') := by
  unfold truth
  rw [ho]
  split
  · exact .emitTy .bool (gives_convert o .bool) (gives_convert o' .bool)
  · exact .fail

theorem partMatches_fieldSlot (name : String) (ty : Ty) (write : Bool) :
    PartMatches Eq (fieldSlot ctx id name ty write) (fieldSlot ctx id' name ty write) := by
  unfold fieldSlot
  cases ctx.registry.get? name with
  | none => exact .fail
  | some entry =>
    dsimp only
    split
    · exact .fail
    · split
      · exact .fail
      · exact .pure rfl

theorem partMatches_externalValue (name : String) (ty : Ty) :
    PartMatches SameTy (externalValue ctx id name ty) (externalValue ctx id' name ty) := by
  unfold externalValue
  cases ctx.custom.get? name with
  | none =>
    refine PartMatches.bind (R := fun _ _ => True) (.lift (.push rfl)) fun _ _ _ => ?_
    exact .emitTy (Value.zero ty).ty (fun _ => rfl) fun _ => rfl
  | some value =>
    dsimp only
    split
    · exact .fail
    · exact .emitTy value.ty (fun _ => rfl) fun _ => rfl

theorem partMatches_binaryValues (op : BinaryOp) (hl : SameTy l l') (hr : SameTy r r') :
    PartMatches SameTy (binaryValues ctx id op l r) (binaryValues ctx id' op l' r') := by
  unfold binaryValues
  rw [hl, hr]
  split
  · exact .fail
  · next common _ =>
    exact .emitTy (resultTy op.opClass (operandTy op.opClass common)) (fun _ => rfl) fun _ => rfl

theorem partMatches_unaryValue (op : UnaryOp) (ho : SameTy o o') :
    PartMatches SameTy (unaryValue ctx id op o) (unaryValue ctx id' op o') := by
  unfold unaryValue
  rw [ho]
  split
  · exact .fail
  · next ty _ => exact .emitTy ty (fun _ => rfl) fun _ => rfl

theorem partMatches_stepPlace (op : CrementOp) (post : Bool) (hp : p'.ty = p.ty) :
    PartMatches SameTy (stepPlace ctx id op post p) (stepPlace ctx id' op post p') := by
  unfold stepPlace
  rw [hp]
  split
  · exact .fail
  · exact .emitTy p.ty (gives_step op post p) (hp ▸ gives_step op post p')

/-- The end of an assignment, from the operand that it stores. -/
theorem partMatches_stored (hp : p'.ty = p.ty) {valueId valueId' : NodeId} (ho : SameTy o o') :
    PartMatches SameTy
      (do
        let stored ← coerce ctx o p.ty valueId
        emit (store p stored)
        return stored)
      (do
        let stored ← coerce ctx o' p'.ty valueId'
        emit (store p' stored)
        return stored) := by
  rw [hp]
  refine (partMatches_coerce ho p.ty).bind fun stored stored' hstored => ?_
  exact (PartMatches.emit (R := fun _ _ => True) fun _ _ => trivial).bind fun _ _ _ => .pure hstored

theorem partMatches_assignPlace (compound : Option BinaryOp) {valueId valueId' : NodeId} (hp : p'.ty = p.ty)
    (ho : SameTy o o') :
    PartMatches SameTy (assignPlace ctx id valueId compound p o) (assignPlace ctx id' valueId' compound p' o') := by
  cases compound with
  | none => exact (PartMatches.pure ho).bind fun _ _ ho => partMatches_stored hp ho
  | some op =>
    refine (PartMatches.emitTy p.ty (gives_load p) (hp ▸ gives_load p')).bind fun current current' hcurrent => ?_
    exact (partMatches_binaryValues op hcurrent ho).bind fun _ _ ho => partMatches_stored hp ho

theorem partMatches_packValues {os os' : List Operand} (hos : os'.map Operand.ty = os.map Operand.ty) :
    PartMatches SameTy (packValues ctx id os) (packValues ctx id' os') := by
  unfold packValues
  rw [hos]
  split
  · exact .fail
  · next ty _ => exact .emitTy ty (fun _ => rfl) fun _ => rfl

theorem partMatches_indexOperand (limit : Nat) {t t' : Term} (hliteral : literalIndex? t' = literalIndex? t)
    {x x' : PartM Operand} (hx : PartMatches SameTy x x') :
    PartMatches SameTy (indexOperand ctx limit t x) (indexOperand ctx limit t' x') := by
  have hrest : PartMatches SameTy
      (do
        let operand ← x
        if operand.ty.isIntegerScalar then emit (Builder.convert operand .int32)
        else fail ctx .semantic t.id ("array index must be an integer, found " ++ operand.ty.text))
      (do
        let operand ← x'
        if operand.ty.isIntegerScalar then emit (Builder.convert operand .int32)
        else fail ctx .semantic t'.id ("array index must be an integer, found " ++ operand.ty.text)) := by
    refine hx.bind fun o o' ho => ?_
    rw [ho]
    split
    · exact .emitTy .int32 (gives_convert o .int32) (gives_convert o' .int32)
    · exact .fail
  unfold indexOperand
  rw [hliteral]
  split
  · split
    · exact .fail_bind
    · exact hrest
  · exact hrest

/-- Terms that are generated as indices in the same way, each with its step. -/
def IndexMatches (x x' : Term × PartM Operand) : Prop :=
  literalIndex? x'.1 = literalIndex? x.1 ∧ PartMatches SameTy x.2 x'.2

theorem partMatches_componentIndex {container container' : Operand} (hcontainer : SameTy container container')
    {x x' : Term × PartM Operand} {column column' : Option (Term × PartM Operand)} (hx : IndexMatches x x')
    (hcolumn : Option.Rel IndexMatches column column') :
    PartMatches SameTy (componentIndex ctx id container x column) (componentIndex ctx id' container' x' column') := by
  unfold componentIndex
  rw [hcontainer]
  cases hcolumn with
  | none =>
    cases container.ty with
    | vector | matrix => exact partMatches_indexOperand _ hx.1 hx.2
    | _ => exact .fail
  | some hcolumn =>
    cases container.ty with
    | matrix kind n =>
      refine (partMatches_indexOperand n.toNat hx.1 hx.2).bind fun i i' _ => ?_
      refine (partMatches_indexOperand n.toNat hcolumn.1 hcolumn.2).bind fun j j' _ => ?_
      exact .emitTy .int32 (fun _ => rfl) fun _ => rfl
    | _ => exact .fail

theorem partMatches_callee (name : String) :
    PartMatches (fun g g' => g' = g ∧ ctx.library.get? name = some g) (callee ctx id name) (callee ctx id' name) := by
  unfold callee
  split
  · exact .fail
  · next group hgroup =>
    split
    · exact .fail
    · exact .pure ⟨rfl, hgroup⟩

/-- A call of an overload of the standard library; an inline one has its result on both sides. -/
theorem partMatches_callValues (hstd : ctx.library = .standard) (name : String) {group : Group}
    (hgroup : ctx.library.get? name = some group) {os os' : List Operand} (hos : os'.map Operand.ty = os.map Operand.ty) :
    PartMatches SameTy (callValues ctx id name group os) (callValues ctx id' name group os') := by
  unfold callValues
  rw [hos]
  split
  · next e he =>
    refine PartMatches.bind (R := fun _ _ => True) (.lift (.push ?_)) fun _ _ _ => .failure
    unfold unresolved
    split <;> rfl
  · next resolution hresolution =>
    rw [hstd] at hgroup
    obtain ⟨hmem, tier, hfits⟩ := Group.resolve_eq_ok hresolution
    have hfixed := (Library.standard_sound (σ := ⟨fun _ _ => False, False⟩) hgroup _ hmem).fixed
    have hcount : os.length = resolution.function.signature.params.length := by
      simpa [Signature.acceptsCount, hfixed] using (Bool.and_eq_true_iff.mp hfits).1
    have hcount' : os'.length = os.length := by simpa using congrArg List.length hos
    have hargs (os : List Operand) (hcount : os.length = resolution.function.signature.params.length) :
        BuildM.Gives (convertArguments resolution.function.signature 0 os) fun args =>
          args.map Operand.ty = resolution.function.signature.params := by
      simpa using gives_convertArguments hfixed (i := 0) (by rw [Nat.zero_add, hcount])
    refine (PartMatches.emitGives (hargs os hcount) (hargs os' (hcount'.trans hcount))).bind ?_
    rintro args args' ⟨htypes, htypes'⟩
    split
    · exact .emitTy resolution.function.signature.ret (fun _ => rfl) fun _ => rfl
    · next generator hgenerator =>
      have hresult := Library.standard_hasResult hgroup _ hmem generator hgenerator ctx.custom
      refine (PartMatches.emitGives (hresult args htypes) (hresult args' htypes')).bind ?_
      rintro _ _ ⟨⟨o, rfl, ho⟩, o', rfl, ho'⟩
      dsimp only
      rw [if_pos ho, if_pos ho']
      exact .pure (ho'.trans ho.symm)

theorem partMatches_logical (op : BinaryOp) {left left' right right' : NodeId × PartM Operand}
    (hleft : PartMatches SameTy left.2 left'.2) (hright : PartMatches SameTy right.2 right'.2) :
    PartMatches SameTy (logical ctx op left right) (logical ctx op left' right') := by
  have hunit (action action' : BuildM Unit) : PartMatches (fun _ _ => True) (emit action) (emit action') :=
    .emit fun _ _ => trivial
  refine hleft.bind fun l l' hl => (partMatches_truth _ hl).bind fun lc lc' _ => ?_
  refine (PartMatches.emitTy .bool (fun _ => rfl) fun _ => rfl).bind fun result result' hresult => ?_
  refine (hunit _ _).bind fun _ _ _ => ?_
  refine (PartMatches.lift (.inBlock (R := Option.Rel fun _ _ => True) ?_)).bind fun done done' hdone => ?_
  · exact hright.bind fun r r' hr => (partMatches_truth _ hr).bind fun rc rc' _ => hunit _ _
  · obtain ⟨done, body⟩ := done
    obtain ⟨done', body'⟩ := done'
    cases hdone with
    | none => exact .failure
    | some => exact (hunit _ _).bind fun _ _ _ => .pure hresult

/-- A declaration, from the step that generates its value. -/
theorem partMatches_declare (ty : Ty) {name name' : Term} (hname : name'.localName? = name.localName?)
    {start start' : Option (NodeId × PartM Operand)}
    (hstart : Option.Rel (fun s s' => PartMatches SameTy s.2 s'.2) start start') :
    PartMatches (fun _ _ => True) (declare ctx id ty name start) (declare ctx id' ty name' start') := by
  cases hlocal : name.localName? with
  | none =>
    have hfail {id : NodeId} {name : Term} {start : Option (NodeId × PartM Operand)} (hlocal : name.localName? = none) :
        declare ctx id ty name start = fail ctx .declaration id "declaration without a local name" := by
      unfold declare
      split
      · cases hlocal
      · rfl
    rw [hfail hlocal, hfail (hname.trans hlocal)]
    exact .fail
  | some n =>
    have hnode {t : Term} (ht : t.localName? = some n) : ∃ nameId, t = .node nameId (.localName n) := by
      unfold Term.localName? at ht
      split at ht
      · next nameId _ => exact ⟨nameId, by rw [Option.some.inj ht]⟩
      · cases ht
    obtain ⟨nameId, rfl⟩ := hnode hlocal
    obtain ⟨nameId', rfl⟩ := hnode (hname.trans hlocal)
    have hdeclared {operand operand' : Operand} (hoperand : SameTy operand operand') (action action' : BuildM Unit) :
        PartMatches (fun _ _ => True)
          (do
            emit action
            OptionT.lift (declareLocal n operand))
          (do
            emit action'
            OptionT.lift (declareLocal n operand')) := by
      refine (PartMatches.emit (R := fun _ _ => True) fun _ _ => trivial).bind fun _ _ _ => ?_
      exact .lift fun _ _ g g' hg => ⟨trivial, hg.declare n hoperand⟩
    refine PartMatches.get.bind ?_
    rintro g g' ⟨_, _, hg⟩
    have hfind := (Scopes.find?_types g'.scopes n).trans (hg.scopes ▸ (Scopes.find?_types g.scopes n).symm)
    change Option.map _ (lookupLocal? n g') = Option.map _ (lookupLocal? n g) at hfind
    have hnew : (lookupLocal? n g').isSome = (lookupLocal? n g).isSome := by
      simpa using congrArg Option.isSome hfind
    dsimp only
    rw [hnew]
    split
    · exact PartMatches.bind (R := fun _ _ => True) (.lift (.push rfl)) fun _ _ _ => .failure
    · split
      · exact .fail_bind
      · have halloc : PartMatches SameTy (emit (Builder.alloc ty)) (emit (Builder.alloc ty)) :=
          .emitTy ty (fun _ => rfl) fun _ => rfl
        cases hstart with
        | none =>
          refine PartMatches.bind (R := fun v v' => v = none ∧ v' = none) (.pure ⟨rfl, rfl⟩) ?_
          rintro _ _ ⟨rfl, rfl⟩
          exact halloc.bind fun _ _ ho => hdeclared ho _ _
        | some hstart =>
          refine hstart.bind fun v v' hv => (partMatches_coerce hv ty).bind fun w w' _ => ?_
          refine PartMatches.bind (R := fun v v' => v = some w ∧ v' = some w') (.pure ⟨rfl, rfl⟩) ?_
          rintro _ _ ⟨rfl, rfl⟩
          exact halloc.bind fun _ _ ho => hdeclared ho _ _

theorem matches_conditional {test test' : NodeId × PartM Operand} {thenBranch thenBranch' elseBranch elseBranch' : GenerateM Unit}
    (htest : PartMatches SameTy test.2 test'.2) (hthen : Matches (fun _ _ => True) thenBranch thenBranch')
    (helse : Matches (fun _ _ => True) elseBranch elseBranch') :
    Matches (fun _ _ => True) (conditional ctx test thenBranch elseBranch) (conditional ctx test' thenBranch' elseBranch') := by
  have hcond : PartMatches SameTy
      (do
        let c ← test.2
        condition ctx c test.1)
      (do
        let c ← test'.2
        condition ctx c test'.1) := htest.bind fun c c' hc => partMatches_truth _ hc
  refine Matches.bind hcond fun cond cond' hcond => ?_
  cases hcond with
  | none => exact .pure trivial
  | some => exact hthen.inBlock.bind fun _ _ _ => helse.inBlock.bind fun _ _ _ => .build fun _ _ => trivial

theorem matches_loop (kind : LoopKind) {start start' step step' body body' : GenerateM Unit}
    {test test' : Option (NodeId × PartM Operand)} (hstart : Matches (fun _ _ => True) start start')
    (htest : Option.Rel (fun t t' => PartMatches SameTy t.2 t'.2) test test')
    (hstep : Matches (fun _ _ => True) step step') (hbody : Matches (fun _ _ => True) body body') :
    Matches (fun _ _ => True) (loop ctx kind start test step body) (loop ctx kind start' test' step' body') := by
  refine Matches.pushScope.bind fun _ _ _ => hstart.bind fun _ _ _ => ?_
  refine (Matches.inBlock (R := Option.Rel fun _ _ => True) ?_).bind fun r r' hr => ?_
  · cases htest with
    | none => exact PartMatches.pure trivial
    | some htest => exact htest.bind fun c c' hc => (partMatches_truth _ hc).bind fun _ _ _ => .pure trivial
  · obtain ⟨cond, testBody⟩ := r
    obtain ⟨cond', testBody'⟩ := r'
    cases hr with
    | none => exact .popScope
    | some =>
      refine hbody.inLoop.inBlock.bind fun _ _ _ => hstep.inBlock.bind fun _ _ _ => ?_
      exact (Matches.build (R := fun _ _ => True) fun _ _ => trivial).bind fun _ _ _ => .popScope

theorem matches_jump (word : Jump) : Matches (fun _ _ => True) (jump ctx id word) (jump ctx id' word) := by
  refine Matches.get.bind fun g g' ⟨_, _, hg⟩ => ?_
  rw [hg.depth]
  split
  · exact .push rfl
  · exact .build fun _ _ => trivial

/-! ## Terms -/

/-- Terms whose generation stays in step wherever they stand. -/
structure TermMatches (ctx : Context) (t t' : Term) : Prop where
  literalIndex? : literalIndex? t' = literalIndex? t
  localName? : t'.localName? = t.localName?
  expr : PartMatches SameTy (expr ctx t) (expr ctx t')
  place : PartMatches (fun p p' => p'.ty = p.ty) (place ctx t) (place ctx t')
  stmt : Matches (fun _ _ => True) (stmt ctx t) (stmt ctx t')

/-- Terms that match, one by one, as expressions. -/
theorem partMatches_exprs {ts ts' : List Term} (h : List.Forall₂ (TermMatches ctx) ts ts') :
    PartMatches (fun os os' => os'.map Operand.ty = os.map Operand.ty) (exprs ctx ts) (exprs ctx ts') := by
  induction h with
  | nil => exact .pure rfl
  | cons ht _ ih =>
    refine ht.expr.bind fun v v' hv => ih.bind fun vs vs' hvs => .pure ?_
    exact congrArg₂ List.cons hv hvs

/-- Terms that match, one by one, as statements. -/
theorem matches_stmts {ts ts' : List Term} (h : List.Forall₂ (TermMatches ctx) ts ts') :
    Matches (fun _ _ => True) (stmts ctx ts) (stmts ctx ts') := by
  induction h with
  | nil => exact .pure trivial
  | cons ht _ ih => exact ht.stmt.bind fun _ _ _ => ih

/-- The position of a component, from terms that match. -/
theorem partMatches_position {container container' : Operand} (hcontainer : SameTy container container')
    {row row' : Term} {column column' : Option Term} (hrow : TermMatches ctx row row')
    (hcolumn : Option.Rel (TermMatches ctx) column column') :
    PartMatches SameTy (componentIndex ctx id container (row, expr ctx row) (column.map fun t => (t, expr ctx t)))
      (componentIndex ctx id' container' (row', expr ctx row') (column'.map fun t => (t, expr ctx t))) := by
  refine partMatches_componentIndex hcontainer ⟨hrow.literalIndex?, hrow.expr⟩ ?_
  cases hcolumn with
  | none => exact .none
  | some h => exact .some ⟨h.literalIndex?, h.expr⟩

section

variable {n n' : Node Term} (h : n.Rel (TermMatches ctx) n')

include h

/-- A node whose children match is generated as a value in step. -/
theorem partMatches_exprNode (hstd : ctx.library = .standard) :
    PartMatches SameTy (exprNode ctx id n) (exprNode ctx id' n') := by
  cases h with
  | @value literal => exact .emitTy literal.toValue.ty (fun _ => rfl) fun _ => rfl
  | @localName name => exact partMatches_localOperand name
  | @field name ty =>
    exact (partMatches_fieldSlot name ty false).bind fun _ _ _ => .emitTy ty (fun _ => rfl) fun _ => rfl
  | @external name ty => exact partMatches_externalValue name ty
  | @binary op _ _ _ _ hleft hright =>
    rw [exprNode, exprNode]
    split
    · exact partMatches_logical op hleft.expr hright.expr
    · exact hleft.expr.bind fun l l' hl => hright.expr.bind fun r r' hr => partMatches_binaryValues op hl hr
  | @unary op _ _ h => exact h.expr.bind fun v v' hv => partMatches_unaryValue op hv
  | @crement op post _ _ h => exact h.place.bind fun p p' hp => partMatches_stepPlace op post hp
  | @assign _ _ compound _ _ htarget hvalue =>
    rw [exprNode, exprNode]
    exact htarget.place.bind fun p p' hp => hvalue.expr.bind fun v v' hv => partMatches_assignPlace compound hp hv
  | @cast ty _ _ h =>
    refine h.expr.bind fun v v' hv => ?_
    rw [hv]
    split
    · exact .emitTy ty (gives_convert v ty) (gives_convert v' ty)
    · exact .fail
  | @call name _ _ h =>
    refine (partMatches_callee name).bind ?_
    rintro group _ ⟨rfl, hgroup⟩
    exact (partMatches_exprs h).bind fun os os' hos => partMatches_callValues hstd name hgroup hos
  | pack h => exact (partMatches_exprs h).bind fun os os' hos => partMatches_packValues hos
  | unpack harray hrow hcolumn =>
    rw [exprNode_unpack, exprNode_unpack]
    refine harray.expr.bind fun container container' hcontainer => ?_
    refine (partMatches_position hcontainer hrow hcolumn).bind fun _ _ _ => ?_
    exact .emitTy container.ty.elementTy (fun _ => rfl) fun _ => congrArg Ty.elementTy hcontainer
  | block | conditional | loop | jump | declare => exact .fail

/-- A node whose children match is generated as a place in step. -/
theorem partMatches_place :
    PartMatches (fun p p' => p'.ty = p.ty) (place ctx (.node id n)) (place ctx (.node id' n')) := by
  cases h with
  | @localName name => exact (partMatches_localOperand name).bind fun o o' ho => .pure ho
  | @field name ty => exact (partMatches_fieldSlot name ty true).bind fun _ _ _ => .pure rfl
  | unpack harray hrow hcolumn =>
    rw [place_unpack, place_unpack]
    refine harray.place.bind fun base base' hbase => ?_
    refine (PartMatches.emitTy base.ty (gives_load base) (hbase ▸ gives_load base')).bind
      fun container container' hcontainer => ?_
    refine (partMatches_position hcontainer hrow hcolumn).bind fun _ _ _ => .pure ?_
    exact congrArg Ty.elementTy hcontainer
  | _ => exact .fail

/-- A node whose children match is generated as a statement in step. -/
theorem matches_stmt (hstd : ctx.library = .standard) :
    Matches (fun _ _ => True) (stmt ctx (.node id n)) (stmt ctx (.node id' n')) := by
  have hexpression : Matches (fun _ _ => True)
      (do
        let _ ← (exprNode ctx id n).run
        return ())
      (do
        let _ ← (exprNode ctx id' n').run
        return ()) := Matches.bind (partMatches_exprNode h hstd) fun _ _ _ => .pure trivial
  have hpart {part part' : Option Term} (hpart : Option.Rel (TermMatches ctx) part part') :
      Matches (fun _ _ => True) (stmt? ctx part) (stmt? ctx part') := by
    cases hpart with
    | none => exact .pure trivial
    | some h => exact h.stmt
  have hvalue {part part' : Option Term} (hpart : Option.Rel (TermMatches ctx) part part') :
      Option.Rel (fun s s' => PartMatches SameTy s.2 s'.2) (part.map fun t => (t.id, expr ctx t))
        (part'.map fun t => (t.id, expr ctx t)) := by
    cases hpart with
    | none => exact .none
    | some h => exact .some h.expr
  cases h with
  | block h => exact Matches.pushScope.bind fun _ _ _ => (matches_stmts h).bind fun _ _ _ => .popScope
  | conditional htest hthen helse => exact matches_conditional htest.expr hthen.stmt helse.stmt
  | @loop kind _ _ _ _ _ _ _ _ hstart htest hstep hbody =>
    rw [stmt_loop, stmt_loop]
    exact matches_loop kind (hpart hstart) (hvalue htest) (hpart hstep) hbody.stmt
  | @jump word => exact matches_jump word
  | @declare ty _ _ _ _ hname hstart =>
    exact Matches.bind (partMatches_declare ty hname.localName? (hvalue hstart)) fun _ _ _ => .pure trivial
  | _ => exact hexpression

end

/-- Nodes of one shape match if their children do. -/
theorem TermMatches.node (hstd : ctx.library = .standard) {content content' : Node Term}
    (hshape : content.shape = content'.shape)
    (h : ∀ c c', (c, c') ∈ content.children.zip content'.children → TermMatches ctx c c') :
    TermMatches ctx (.node id content) (.node id' content') := by
  have hrel := Node.rel_of_shape_eq hshape h
  refine ⟨?_, ?_, ?_, partMatches_place hrel, matches_stmt hrel hstd⟩
  · cases hrel <;> rfl
  · cases hrel <;> rfl
  · exact partMatches_exprNode hrel hstd

end Generate

end Elementwise
