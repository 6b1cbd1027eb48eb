import Elementwise.Proofs.Generate.Reports
import Elementwise.Proofs.Generate.Slots
import Elementwise.Proofs.Registry.Occurrences

/-!
# What all generation keeps to

What a step of generation reports and leaves behind, on every path. It gathers diagnostics of its own kinds: none
of them is about the backend, and about fields it only says what it says of their slots. If the inline functions of
the library only add code, the nesting is as it was. If the library keeps to the registry, the code in the open
block does, and the registers of locals have their types. A step that reports an error and gives no result leaves
the same, so this holds of every term. The proofs follow the text of the generator.
-/

namespace Elementwise

open Builder

/-- The register of every local has the type of the local. -/
def Generation.Typed (g : Generation) : Prop := ∀ scope ∈ g.scopes, ∀ l ∈ scope, l.2.Typed g.builder

namespace Generate

variable {α β : Type} {ctx : Context} {id : NodeId} {K N : Prop} {P : Diagnostic → Prop} {r : Registry} {g : Generation}
  {o x y : Operand}

/-- A step of generation reports only what is as stated, whatever the sink. Where `N` holds, it closes what it opens.
Where `K` holds, it adds only code that keeps to a registry, and leaves locals their types; then `post` holds of its
result and of the state after it. -/
def Ensures (K N : Prop) (P : Diagnostic → Prop) (r : Registry) (g : Generation) (step : GenerateM α)
    (post : α → Generation → Prop) : Prop :=
  (K → g.Typed) → ReportsFrom P g step ∧ (N → g.SameNesting (step g).2) ∧
    (K → Gains r g.builder (step g).2.builder ∧ (step g).2.Typed ∧ post (step g).1 (step g).2)

/-- A step without a result. -/
abbrev EnsuresStep (K N : Prop) (P : Diagnostic → Prop) (r : Registry) (step : GenerateM Unit) : Prop :=
  ∀ g, Ensures K N P r g step fun _ _ => True

namespace Ensures

variable {post : α → Generation → Prop}

variable {step : GenerateM α}

theorem pure {a : α} (h : K → post a g) : Ensures K N P r g (pure a) post :=
  fun hg => ⟨.pure a, fun _ => .refl _, fun k => ⟨.refl _, hg k, h k⟩⟩

theorem bind {k : α → GenerateM β} {post' : β → Generation → Prop} (h : Ensures K N P r g step post)
    (hk : ∀ a g₁, (K → Gains r g.builder g₁.builder) → (K → post a g₁) → Ensures K N P r g₁ (k a) post') :
    Ensures K N P r g (step >>= k) post' := by
  intro hg
  obtain ⟨hreports, hnests, hstep⟩ := h hg
  obtain ⟨hreports', hnests', hstep'⟩ := hk _ _ (fun k => (hstep k).1) (fun k => (hstep k).2.2) fun k => (hstep k).2.1
  exact ⟨hreports.bind hreports', fun n => (hnests n).trans (hnests' n),
    fun k => ⟨(hstep k).1.trans (hstep' k).1, (hstep' k).2⟩⟩

theorem weaken {post' : α → Generation → Prop} (h : Ensures K N P r g step post)
    (hpost : ∀ a g', post a g' → post' a g') : Ensures K N P r g step post' := by
  intro hg
  obtain ⟨hreports, hnests, hstep⟩ := h hg
  refine ⟨hreports, hnests, fun k => ?_⟩
  obtain ⟨hgains, htyped, hp⟩ := hstep k
  exact ⟨hgains, htyped, hpost _ _ hp⟩

theorem of_reports {P' : Diagnostic → Prop} (hreports : Reports P step) (h : Ensures K N P' r g step post) :
    Ensures K N P r g step post := fun hg => ⟨hreports g, (h hg).2⟩

/-- A step in a scope of its own. -/
theorem inScope {step : GenerateM Unit} (h : EnsuresStep K N P r step) :
    Ensures K N P r g (do pushScope; step; popScope) fun _ _ => True := by
  intro hg
  obtain ⟨hreports, hnests, hstep⟩ := h { g with scopes := [] :: g.scopes } fun k scope hscope =>
    (List.mem_cons.mp hscope).elim (fun h => by simp [h]) (hg k scope)
  refine ⟨(ReportsFrom.modify fun _ => rfl).bind (hreports.bind (.modify fun _ => rfl)), fun n => ?_, fun k => ?_⟩
  · obtain ⟨hblocks, hscopes, hdepth⟩ := hnests n
    exact ⟨hblocks, List.length_tail.trans (congrArg (· - 1) hscopes), hdepth⟩
  · obtain ⟨hgains, htyped, -⟩ := hstep k
    exact ⟨hgains, fun scope hscope => htyped scope (List.mem_of_mem_tail hscope), trivial⟩

theorem push {d : Diagnostic} (h : P d) : Ensures K N P r g (push d) fun _ _ => True :=
  fun hg => ⟨.push h, fun _ => ⟨.refl _, rfl, rfl⟩, fun k => ⟨.refl _, hg k, trivial⟩⟩

theorem get_bind {f : Generation → GenerateM α} (hf : ∀ sink, f { g with sink } = f g)
    (h : (K → g.Typed) → Ensures K N P r g (f g) post) : Ensures K N P r g (get >>= f) post :=
  fun hg => ⟨(h hg hg).1.get_bind hf, (h hg hg).2⟩

/-- A step of building. -/
theorem build {action : BuildM α} {post : α → Builder → Prop} (hgrowing : N → Growing action)
    (h : K → Keeps r g.builder action post) : Ensures K N P r g (build action) fun a g' => post a g'.builder :=
  fun hg => ⟨.build _, fun n => ⟨(hgrowing n).grows _, rfl, rfl⟩,
    fun k => ⟨(h k).1, fun scope hscope l hl => (h k).1.typed (hg k scope hscope l hl), (h k).2⟩⟩

/-- A step in a block of its own, which is given back. -/
theorem inBlock (h : Ensures K N P r g.opened step fun _ _ => True) :
    Ensures K N P r g (inBlock step) fun result g' => Instr.AllRegistered r g'.builder.regs result.2 := by
  intro hg
  obtain ⟨hreports, hnests, hstep⟩ := h hg
  refine ⟨hreports.inBlock, fun n => (hnests n).inBlock.1, fun k => ?_⟩
  obtain ⟨hgains, htyped, -⟩ := hstep k
  obtain ⟨hgains', hregs, hbody⟩ := hgains.block rfl
  refine ⟨hgains', fun scope hscope l hl => ?_, hbody⟩
  exact (congrArg (·[l.2.reg]?) hregs).trans (htyped scope hscope l hl)

/-- A step one loop deeper. -/
theorem inLoop (h : ∀ g, Ensures K N P r g step fun _ _ => True) : Ensures K N P r g (inLoop step) fun _ _ => True := by
  intro hg
  obtain ⟨hreports, hnests, hstep⟩ := h { g with loopDepth := g.loopDepth + 1 } hg
  refine ⟨hreports.inLoop, fun n => ?_, hstep⟩
  obtain ⟨hblocks, hscopes, hdepth⟩ := hnests n
  exact ⟨hblocks, hscopes, congrArg (· - 1) hdepth⟩

end Ensures

/-- The same of a step whose result may be missing. -/
def PartEnsures (K N : Prop) (P : Diagnostic → Prop) (r : Registry) (g : Generation) (step : PartM α)
    (post : α → Generation → Prop) : Prop :=
  Ensures K N P r g step.run fun result g' => ∀ a ∈ result, post a g'

namespace PartEnsures

variable {post : α → Generation → Prop}

variable {step : PartM α}

theorem pure {a : α} (h : K → post a g) : PartEnsures K N P r g (pure a) post :=
  Ensures.pure fun k _ ha => Option.some.inj ha ▸ h k

theorem failure : PartEnsures K N P r g (failure : PartM α) post := Ensures.pure fun _ => nofun

theorem bind {k : α → PartM β} {post' : β → Generation → Prop} (h : PartEnsures K N P r g step post)
    (hk : ∀ a g₁, (K → Gains r g.builder g₁.builder) → (K → post a g₁) → PartEnsures K N P r g₁ (k a) post') :
    PartEnsures K N P r g (step >>= k) post' := by
  unfold PartEnsures
  rw [OptionT.run_bind]
  refine Ensures.bind h fun result g₁ hgains hresult => ?_
  cases result with
  | none => exact .pure fun _ => nofun
  | some a => exact hk a g₁ hgains fun k => hresult k a rfl

theorem weaken {post' : α → Generation → Prop} (h : PartEnsures K N P r g step post)
    (hpost : ∀ a g', post a g' → post' a g') : PartEnsures K N P r g step post' :=
  Ensures.weaken h fun _ g' hresult a ha => hpost a g' (hresult a ha)

theorem lift {step : GenerateM α} (h : Ensures K N P r g step post) : PartEnsures K N P r g (OptionT.lift step) post :=
  h.bind fun _ _ _ ha => .pure fun k _ ha' => Option.some.inj ha' ▸ ha k

/-- A step of building. -/
theorem emit {action : BuildM α} [Growing action] {post : α → Builder → Prop} (h : K → Keeps r g.builder action post) :
    PartEnsures K N P r g (emit action) fun a g' => post a g'.builder :=
  lift (.build (fun _ => inferInstance) h)

theorem get_bind {f : Generation → PartM α} (hf : ∀ sink, f { g with sink } = f g)
    (h : (K → g.Typed) → PartEnsures K N P r g (f g) post) : PartEnsures K N P r g (get >>= f) post :=
  Ensures.get_bind (f := fun g => (f g).run) (fun sink => congrArg OptionT.run (hf sink)) h

/-- A step in a block of its own, which is given back. -/
theorem inBlock (h : PartEnsures K N P r g.opened step fun _ _ => True) :
    Ensures K N P r g (inBlock step.run) fun result g' => Instr.AllRegistered r g'.builder.regs result.2 :=
  Ensures.inBlock (Ensures.weaken h fun _ _ _ => trivial)

theorem fail {kind : ErrorKind} {message : String} (h : P (.error kind message (ctx.spanOf id))) :
    PartEnsures K N P r g (fail ctx kind id message) post :=
  (lift (.push h)).bind fun _ _ _ _ => failure

end PartEnsures

/-- A step that stands for a value gives an operand of its register's type. -/
abbrev EnsuresValue (K N : Prop) (P : Diagnostic → Prop) (r : Registry) (step : PartM Operand) : Prop :=
  ∀ g, PartEnsures K N P r g step fun o g' => o.Typed g'.builder

/-! ## The steps of generation -/

/-- The slot of a field is that of its entry. -/
theorem ensures_fieldSlot (hregistry : K → ctx.registry.Numbered) (name : String) (ty : Ty) (write : Bool) :
    PartEnsures K N (·.kind ≠ .backend) r g (fieldSlot ctx id name ty write) fun slot _ =>
      ∃ e, ctx.registry.at? slot = some e ∧ e.ty = ty ∧ (write = true → e.writable = true) := by
  unfold fieldSlot
  cases hget : ctx.registry.get? name with
  | none => exact .fail nofun
  | some entry =>
    dsimp only
    split
    · exact .fail nofun
    · next hty =>
      split
      · exact .fail nofun
      · next hwritable =>
        refine .pure fun k => ⟨entry, ?_, not_not.mp hty, fun hwrite => by simpa [hwrite] using hwritable⟩
        have hentry := (hregistry k).list_getElem? hget
        rwa [Registry.list, Table.values, List.getElem?_map] at hentry

/-- One more local. -/
theorem ensures_declareLocal (name : String) (ho : K → o.Typed g.builder) :
    Ensures K N P r g (declareLocal name o) fun _ _ => True := by
  refine fun hg => ⟨.modify fun sink => ?_, fun _ => ?_, fun k => ?_⟩
  · cases g with
    | mk builder _ scopes loopDepth => cases scopes <;> rfl
  · rw [declareLocal_eq]
    exact ⟨.refl _, by cases hscopes : g.scopes <;> simp [Scopes.declare], rfl⟩
  · rw [declareLocal_eq]
    refine ⟨.refl _, fun scope hscope l hl => ?_, trivial⟩
    cases hscopes : g.scopes with
    | nil => simp [hscopes, Scopes.declare] at hscope
    | cons first rest =>
      rw [hscopes, Scopes.declare, List.mem_cons] at hscope
      rcases hscope with rfl | hscope
      · rcases List.mem_cons.mp hl with rfl | hl
        · exact ho k
        · exact hg k first (by simp [hscopes]) l hl
      · exact hg k scope (by simp [hscopes, hscope]) l hl

theorem ensures_exprs {ts : List Term} (h : ∀ t ∈ ts, EnsuresValue K N P r (expr ctx t)) (g : Generation) :
    PartEnsures K N P r g (exprs ctx ts) fun os g' => ∀ o ∈ os, o.Typed g'.builder := by
  induction ts generalizing g with
  | nil =>
    rw [exprs]
    exact .pure fun _ => by simp
  | cons t ts ih =>
    refine (h t List.mem_cons_self g).bind fun v g₁ _ hv => ?_
    refine (ih (fun s hs => h s (List.mem_cons_of_mem _ hs)) g₁).bind fun vs g₂ hgains hvs => .pure fun k => ?_
    exact List.forall_mem_cons.mpr ⟨(hgains k).typed (hv k), hvs k⟩

theorem ensures_stmts {ts : List Term} (h : ∀ t ∈ ts, EnsuresStep K N P r (stmt ctx t)) :
    EnsuresStep K N P r (stmts ctx ts) := by
  induction ts with
  | nil =>
    intro g
    rw [stmts]
    exact .pure fun _ => trivial
  | cons t ts ih =>
    intro g
    refine (h t List.mem_cons_self g).bind fun _ g₁ _ _ => ?_
    exact ih (fun s hs => h s (List.mem_cons_of_mem _ hs)) g₁

/-- A loop is in a scope of its own. -/
theorem loop_eq {kind : LoopKind} {start step body : GenerateM Unit} {test : Option (NodeId × PartM Operand)} :
    loop ctx kind start test step body = (do
      pushScope
      (do
        start
        let (cond, testBody) ← inBlock <| OptionT.run <| match test with
          | none => pure none
          | some (testId, generate) => do
            let c ← generate
            let c ← condition ctx c testId
            pure (some c)
        match cond with
        | none => return ()
        | some cond =>
          let (_, body) ← inBlock (inLoop body)
          let (_, step) ← inBlock step
          build (Builder.emit (.loop kind testBody (cond.map Operand.reg) body step)))
      popScope) := by
  unfold loop
  simp only [bind_assoc]
  refine bind_congr fun _ => bind_congr fun _ => bind_congr fun r => ?_
  obtain ⟨cond, testBody⟩ := r
  cases cond <;> rfl

section

variable (hP : ∀ d : Diagnostic, d.Plain → P d)

include hP

/-- An error with a message that is not about a field, without a result. -/
theorem ensures_fail {kind : ErrorKind} {message : String} {post : α → Generation → Prop} (opening : String)
    (hapart : kind ≠ .backend ∧ ∀ target ∈ [Target.points, .volumes],
      ¬ target.fieldOpening <+: opening.toList ∧ ¬ opening.toList <+: target.fieldOpening)
    (hopens : opening.toList <+: message.toList) : PartEnsures K N P r g (fail ctx kind id message) post :=
  .fail (hP _ (Diagnostic.plain_of_opening opening hapart.1 hopens hapart.2))

theorem ensures_localOperand (name : String) : EnsuresValue K N P r (localOperand ctx id name) := by
  refine fun g => .get_bind (fun _ => rfl) fun hg => ?_
  cases hlookup : lookupLocal? name g with
  | none => exact ensures_fail hP "local '" (by decide) (by simp)
  | some o =>
    obtain ⟨scope, hscope, hmem⟩ := List.exists_of_findSome?_eq_some hlookup
    obtain ⟨before, after, rfl, -⟩ := List.lookup_eq_some_iff.mp hmem
    exact .pure fun k => hg k _ hscope (name, o) (List.mem_append_right _ List.mem_cons_self)

theorem ensures_coerce (ho : K → o.Typed g.builder) (goal : Ty) :
    PartEnsures K N P r g (coerce ctx o goal id) fun o g' => TypedAs goal o g'.builder := by
  unfold coerce
  split
  · exact .emit fun k => keeps_convert (ho k) goal
  · exact ensures_fail hP "cannot implicitly convert " (by decide) (by simp)

/-- A truth value, wanted for a role that is not a field's. -/
theorem ensures_truth (role : String) (hrole : ∀ target ∈ [Target.points, .volumes],
      ¬ target.fieldOpening <+: role.toList ∧ ¬ role.toList <+: target.fieldOpening) (ho : K → o.Typed g.builder) :
    PartEnsures K N P r g (truth ctx role o id) fun o g' => o.Typed g'.builder := by
  unfold truth
  split
  · exact .emit fun k => (keeps_convert (ho k) .bool).typed
  · exact ensures_fail hP role ⟨by decide, hrole⟩ (by simp)

theorem ensures_externalValue (name : String) (ty : Ty) : EnsuresValue K N P r (externalValue ctx id name ty) := by
  intro g
  unfold externalValue
  cases ctx.custom.get? name with
  | none =>
    refine (PartEnsures.lift (.push (hP _ ?_))).bind fun _ g₁ _ _ => ?_
    · exact Diagnostic.plain_of_opening "external '$" (by simp [Diagnostic.warning]) (by simp [Diagnostic.warning]) (by decide)
    · exact .emit fun _ => (keeps_constant _).typed
  | some value =>
    dsimp only
    split
    · exact ensures_fail hP "external '$" (by decide) (by simp)
    · exact .emit fun _ => (keeps_constant value).typed

theorem ensures_binaryValues (op : BinaryOp) (hx : K → x.Typed g.builder) (hy : K → y.Typed g.builder) :
    PartEnsures K N P r g (binaryValues ctx id op x y) fun o g' => o.Typed g'.builder := by
  unfold binaryValues
  split
  · exact ensures_fail hP "operator '" (by decide) (by simp)
  · exact .emit fun k => keeps_applyBinary op (hx k) (hy k) _

theorem ensures_unaryValue (op : UnaryOp) (hx : K → x.Typed g.builder) :
    PartEnsures K N P r g (unaryValue ctx id op x) fun o g' => o.Typed g'.builder := by
  unfold unaryValue
  split
  · exact ensures_fail hP "operator '" (by decide) (by simp)
  · exact .emit fun k => keeps_applyUnary op (hx k) _

theorem ensures_stepPlace (op : CrementOp) (post : Bool) {p : Place} (hp : K → p.Typed r g.builder) :
    PartEnsures K N P r g (stepPlace ctx id op post p) fun o g' => o.Typed g'.builder := by
  unfold stepPlace
  split
  · exact ensures_fail hP "cannot increment or decrement " (by decide) (by simp)
  · exact .emit fun k => keeps_step op post (hp k)

theorem ensures_assignPlace (valueId : NodeId) (compound : Option BinaryOp) {p : Place} (hp : K → p.Typed r g.builder)
    (hx : K → x.Typed g.builder) :
    PartEnsures K N P r g (assignPlace ctx id valueId compound p x) fun o g' => o.Typed g'.builder := by
  have hstore (w : Operand) (g₁ : Generation) (hgains : K → Gains r g.builder g₁.builder)
      (hw : K → w.Typed g₁.builder) : PartEnsures K N P r g₁ (do
        let stored ← coerce ctx w p.ty valueId
        emit (store p stored)
        return stored) fun o g' => o.Typed g'.builder := by
    refine (ensures_coerce hP hw p.ty).bind fun stored g₂ hgains₂ hstored => ?_
    refine (PartEnsures.emit fun k => keeps_store (((hgains k).trans (hgains₂ k)).place (hp k)) (hstored k)).bind
      fun _ g₃ hgains₃ _ => ?_
    exact .pure fun k => (hgains₃ k).typed (hstored k).1
  cases compound with
  | none => exact (PartEnsures.pure hx).bind hstore
  | some op =>
    refine (PartEnsures.emit fun k => keeps_load (hp k)).bind fun current g₁ hgains hcurrent => ?_
    refine (ensures_binaryValues hP op (fun k => (hcurrent k).1) fun k => (hgains k).typed (hx k)).bind
      fun w g₂ hgains₂ hw => ?_
    exact hstore w g₂ (fun k => (hgains k).trans (hgains₂ k)) hw

theorem ensures_packValues {items : List Operand} (hitems : K → ∀ o ∈ items, o.Typed g.builder) :
    PartEnsures K N P r g (packValues ctx id items) fun o g' => o.Typed g'.builder := by
  unfold packValues
  split
  · exact ensures_fail hP "cannot pack " (by decide) (by simp)
  · exact .emit fun k => keeps_applyPack (hitems k) _

theorem ensures_indexOperand (limit : Nat) (t : Term) {generate : PartM Operand} (h : EnsuresValue K N P r generate) :
    EnsuresValue K N P r (indexOperand ctx limit t generate) := by
  have hrest : EnsuresValue K N P r (do
      let operand ← generate
      if operand.ty.isIntegerScalar then emit (Builder.convert operand .int32)
      else fail ctx .semantic t.id ("array index must be an integer, found " ++ operand.ty.text)) := by
    intro g
    refine (h g).bind fun v g₁ _ hv => ?_
    split
    · exact .emit fun k => (keeps_convert (hv k) .int32).typed
    · exact ensures_fail hP "array index must be an integer" (by decide) (by simp)
  intro g
  unfold indexOperand
  split
  · split
    · exact ensures_fail hP "index " (by decide) (by simp)
    · exact hrest g
  · exact hrest g

theorem ensures_componentIndex (container : Operand) {index : Term × PartM Operand}
    {column : Option (Term × PartM Operand)} (hindex : EnsuresValue K N P r index.2)
    (hcolumn : ∀ c ∈ column, EnsuresValue K N P r c.2) :
    EnsuresValue K N P r (componentIndex ctx id container index column) := by
  intro g
  unfold componentIndex
  split
  · exact ensures_indexOperand hP _ _ hindex g
  · exact ensures_indexOperand hP _ _ hindex g
  · refine (ensures_indexOperand hP _ _ hindex g).bind fun i g₁ _ _ => ?_
    refine (ensures_indexOperand hP _ _ (hcolumn _ rfl) g₁).bind fun j g₂ _ _ => ?_
    exact .emit fun _ => keeps_entryIndex _ i j
  · exact ensures_fail hP "cannot index into " (by decide) (by simp)

/-- A call goes on with a group of the library. -/
theorem ensures_callee {name : String} {k : Group → PartM α} {post : α → Generation → Prop}
    (hk : ∀ group, ctx.library.get? name = some group → PartEnsures K N P r g (k group) post) :
    PartEnsures K N P r g (callee ctx id name >>= k) post := by
  unfold callee
  cases hget : ctx.library.get? name with
  | none => exact ensures_fail hP "unknown function '" (by decide) (by simp)
  | some group =>
    dsimp only
    split
    · exact ensures_fail hP "'" (by decide) (by simp)
    · exact hk group hget

theorem ensures_inlineCall (name : String) (signature : Signature) {generator : Generator} {args : List Operand}
    (hplacing : N → Placing (generator ctx.custom args).run)
    (h : K → Keeps r g.builder (generator ctx.custom args).run fun result b' => ∀ o ∈ result, o.Typed b') :
    PartEnsures K N P r g (inlineCall ctx id name signature generator args) fun o g' => o.Typed g'.builder := by
  refine (PartEnsures.lift (.build (fun n => have := hplacing n; inferInstance) h)).bind fun result g₁ _ hresult => ?_
  cases result with
  | none =>
    dsimp only
    split
    · exact .emit fun _ => (keeps_alloc .void).typed
    · exact ensures_fail hP "built-in " (by decide) (by simp [GenerationError.message])
  | some o =>
    dsimp only
    split
    · exact .pure fun k => hresult k o rfl
    · exact ensures_fail hP "built-in " (by decide) (by simp [GenerationError.message])

/-- A call that no overload takes. -/
theorem ensures_unresolved (name : String) (group : Group) (e : ResolutionError) :
    Ensures K N P r g (push (unresolved ctx id name group e)) fun _ _ => True := by
  have hunresolved : (unresolved ctx id name group e).kind = .resolution e.tier ∧
      (unresolved ctx id name group e).message = e.message := by
    unfold unresolved
    split <;> exact ⟨rfl, rfl⟩
  have hkind : (unresolved ctx id name group e).kind ≠ .backend := hunresolved.1 ▸ nofun
  refine .push (hP _ ?_)
  unfold ResolutionError.message at hunresolved
  split at hunresolved
  · exact Diagnostic.plain_of_opening "invalid argument types for " hkind (by simp [hunresolved.2]) (by decide)
  · exact Diagnostic.plain_of_opening "no overload of '" hkind (by simp [hunresolved.2]) (by decide)

/-- A call of a function of a library that keeps to the registry. -/
theorem ensures_callValues {name : String} {group : Group} {values : List Operand}
    (hlibrary : K → ctx.library.KeepsTo r) (hget : ctx.library.get? name = some group)
    (hvalues : K → ∀ v ∈ values, v.Typed g.builder) :
    PartEnsures K ctx.library.Placing P r g (callValues ctx id name group values) fun o g' => o.Typed g'.builder := by
  unfold callValues
  cases hresolve : group.resolve (values.map Operand.ty) with
  | error e => exact (PartEnsures.lift (ensures_unresolved hP name group e)).bind fun _ _ _ _ => .failure
  | ok resolution =>
    refine (PartEnsures.emit fun k => keeps_resolved hresolve (hvalues k)).bind fun args g₁ _ hargs => ?_
    cases himplementation : resolution.function.implementation with
    | native body => exact .emit fun _ => (keeps_callNative name body args _).typed
    | emitted generator =>
      have hfunction := (Group.resolve_eq_ok hresolve).1
      exact ensures_inlineCall hP _ _
        (fun hplacing => hplacing name group hget _ hfunction generator himplementation _ args)
        fun k => hlibrary k name group hget _ hfunction generator himplementation _ args _ (hargs k).1 (hargs k).2

theorem ensures_logical (op : BinaryOp) {left right : NodeId × PartM Operand} (hleft : EnsuresValue K N P r left.2)
    (hright : EnsuresValue K N P r right.2) : EnsuresValue K N P r (logical ctx op left right) := by
  intro g
  refine (hleft g).bind fun l g₁ _ hl => (ensures_truth hP _ (by decide) hl).bind fun lc g₂ _ _ => ?_
  refine (PartEnsures.emit fun _ => keeps_alloc .bool).bind fun result g₃ _ hresult => ?_
  refine (PartEnsures.emit fun _ => keeps_assign result lc).bind fun _ g₄ hgains₄ _ => ?_
  have hbody : PartEnsures K N P r g₄.opened (do
      let v ← right.2
      let v ← logicalOperand ctx v right.1
      emit (Builder.assign result v)) fun _ _ => True :=
    (hright _).bind fun v g₅ _ hv => (ensures_truth hP _ (by decide) hv).bind fun v g₆ _ _ =>
      .emit fun _ => keeps_assign result v
  refine (PartEnsures.lift hbody.inBlock).bind fun done g₅ hgains₅ hdone => ?_
  obtain ⟨done, body⟩ := done
  cases done with
  | none => exact .failure
  | some _ =>
    have hbodies (k : K) : Instr.AllRegistered r g₅.builder.regs (if op = .and then (body, []) else ([], body)).1 ∧
        Instr.AllRegistered r g₅.builder.regs (if op = .and then (body, []) else ([], body)).2 := by
      split
      · exact ⟨hdone k, nofun⟩
      · exact ⟨nofun, hdone k⟩
    refine (PartEnsures.emit fun k => keeps_branch lc (hbodies k).1 (hbodies k).2).bind fun _ g₆ hgains₆ _ => ?_
    exact .pure fun k => ((hgains₄ k).trans ((hgains₅ k).trans (hgains₆ k))).typed (hresult k).1

/-- A declaration, from the step that generates its value. -/
theorem ensures_declare (ty : Ty) (name : Term) {start : Option (NodeId × PartM Operand)}
    (hstart : ∀ s ∈ start, EnsuresValue K N P r s.2) (g : Generation) :
    PartEnsures K N P r g (declare ctx id ty name start) fun _ _ => True := by
  unfold declare
  split
  · next nameId name =>
    have hdeclare (operand : Operand) {g₁ : Generation} (hoperand : K → operand.Typed g₁.builder) {action : BuildM Unit}
        [Growing action] (haction : K → Keeps r g₁.builder action fun _ _ => True) : PartEnsures K N P r g₁ (do
          emit action
          OptionT.lift (declareLocal name operand)) fun _ _ => True :=
      (PartEnsures.emit haction).bind fun _ g₂ hgains _ =>
        .lift (ensures_declareLocal name fun k => (hgains k).typed (hoperand k))
    refine .get_bind (fun _ => rfl) fun _ => ?_
    dsimp only
    split
    · refine (PartEnsures.lift (.push (hP _ ?_))).bind fun _ _ _ _ => .failure
      exact Diagnostic.plain_of_opening "local '" (by simp [Diagnostic.error, Diagnostic.withHelp])
        (by simp [Diagnostic.error, Diagnostic.withHelp]) (by decide)
    · split
      · exact ensures_fail hP "local '" (by decide) (by simp)
      · cases start with
        | none =>
          rw [pure_bind]
          refine (PartEnsures.emit fun _ => keeps_alloc ty).bind fun operand g₁ _ hoperand => ?_
          exact hdeclare operand (fun k => (hoperand k).1) fun _ => keeps_leaf rfl (.of_ne (by simp) (by simp))
        | some start =>
          refine (hstart start rfl g).bind fun v g₁ _ hv => (ensures_coerce hP hv ty).bind fun w g₂ _ _ => ?_
          rw [pure_bind]
          refine (PartEnsures.emit fun _ => keeps_alloc ty).bind fun operand g₃ _ hoperand => ?_
          exact hdeclare operand (fun k => (hoperand k).1) fun _ => keeps_assign operand w
  · exact ensures_fail hP "declaration without a local name" (by decide) List.prefix_rfl

theorem ensures_conditional {test : NodeId × PartM Operand} {thenBranch elseBranch : GenerateM Unit}
    (htest : EnsuresValue K N P r test.2) (hthen : EnsuresStep K N P r thenBranch)
    (helse : EnsuresStep K N P r elseBranch) : EnsuresStep K N P r (conditional ctx test thenBranch elseBranch) := by
  intro g
  have hcond : PartEnsures K N P r g (do
      let c ← test.2
      condition ctx c test.1) fun _ _ => True :=
    (htest g).bind fun c g₁ _ hc => (ensures_truth hP _ (by decide) hc).weaken fun _ _ _ => trivial
  refine Ensures.bind hcond fun cond g₁ _ _ => ?_
  cases cond with
  | none => exact .pure fun _ => trivial
  | some cond =>
    refine (hthen _).inBlock.bind fun thenBody g₂ _ ht => ?_
    refine (helse _).inBlock.bind fun elseBody g₃ hgains he => ?_
    exact .build (fun _ => inferInstance) fun k => keeps_branch cond ((ht k).mono (hgains k).types) (he k)

theorem ensures_loop (kind : LoopKind) {start step body : GenerateM Unit} {test : Option (NodeId × PartM Operand)}
    (hstart : EnsuresStep K N P r start) (htest : ∀ t ∈ test, EnsuresValue K N P r t.2)
    (hstep : EnsuresStep K N P r step) (hbody : EnsuresStep K N P r body) :
    EnsuresStep K N P r (loop ctx kind start test step body) := by
  intro g
  rw [loop_eq]
  refine .inScope fun g₁ => (hstart g₁).bind fun _ g₂ _ _ => (PartEnsures.inBlock ?_).bind fun cond g₃ _ ht => ?_
  · cases test with
    | none => exact .pure fun _ => trivial
    | some test =>
      refine (htest test rfl _).bind fun c g₃ _ hc => (ensures_truth hP _ (by decide) hc).bind fun c g₄ _ _ => ?_
      exact .pure fun _ => trivial
  obtain ⟨cond, testBody⟩ := cond
  cases cond with
  | none => exact .pure fun _ => trivial
  | some cond =>
    refine (Ensures.inBlock (.inLoop hbody)).bind fun bodyCode g₄ hgains₄ hb => ?_
    refine (hstep _).inBlock.bind fun stepCode g₅ hgains₅ hs => ?_
    exact .build (fun _ => inferInstance) fun k => keeps_loop kind (cond.map Operand.reg)
      ((ht k).mono ((hgains₄ k).trans (hgains₅ k)).types) ((hb k).mono (hgains₅ k).types) (hs k)

variable {Q : FieldUse → Prop} (hQ : ∀ u write, Q u → (write = true → u.writable = true) →
  PartReports P (fieldSlot ctx u.id u.name u.ty write)) (hregistry : K → ctx.registry.Numbered)
  (hlibrary : K → ctx.library.KeepsTo ctx.registry)

include hQ hregistry hlibrary

/-- Whatever term is generated as a value or as a place: what is reported is as stated if it is for the slots
of the fields that are used in the term. -/
theorem ensures_expr (t : Term) :
    ((∀ u ∈ t.fieldUses false, Q u) → EnsuresValue K ctx.library.Placing P ctx.registry (expr ctx t)) ∧
      ((∀ u ∈ t.fieldUses true, Q u) → ∀ g, PartEnsures K ctx.library.Placing P ctx.registry g (place ctx t) fun p g' =>
        p.Typed ctx.registry g'.builder) := by
  induction t using Term.children_induction with
  | missing id =>
    rw [expr, place]
    exact ⟨fun _ _ => .failure, fun _ _ => .failure⟩
  | node id content ih =>
    have hvalue {mark : Bool} (huses : ∀ u ∈ (Term.node id content).fieldUses mark, Q u) {c : Term}
        (hc : (false, c) ∈ content.marked mark) : EnsuresValue K ctx.library.Placing P ctx.registry (expr ctx c) :=
      (ih c (Node.mem_children_of_marked hc)).1 (Term.forall_fieldUses_of_marked huses hc)
    have htarget {mark : Bool} (huses : ∀ u ∈ (Term.node id content).fieldUses mark, Q u) {c : Term}
        (hc : (true, c) ∈ content.marked mark) (g : Generation) :
        PartEnsures K ctx.library.Placing P ctx.registry g (place ctx c) fun p g' => p.Typed ctx.registry g'.builder :=
      (ih c (Node.mem_children_of_marked hc)).2 (Term.forall_fieldUses_of_marked huses hc) g
    have hslot (write : Bool) {name : String} {ty : Ty} {inferred writable : Bool}
        (hu : Q ⟨id, name, ty, inferred, writable || write⟩) (g : Generation) :
        PartEnsures K ctx.library.Placing P ctx.registry g (fieldSlot ctx id name ty write) fun slot _ =>
          ∃ e, ctx.registry.at? slot = some e ∧ e.ty = ty ∧ (write = true → e.writable = true) :=
      .of_reports (hQ _ write hu (by simp +contextual)) (ensures_fieldSlot hregistry name ty write)
    constructor
    · intro huses g
      rw [expr]
      cases content with
      | value l => exact .emit fun _ => (keeps_constant _).typed
      | localName name => exact ensures_localOperand hP name g
      | field name ty inferred writable =>
        refine (hslot false (huses _ (Term.mem_fieldUses ..)) g).bind fun slot g₁ _ hentry => ?_
        have hread (k : K) : Keeps ctx.registry g₁.builder (readSlot slot ty) fun o b => o.Typed b := by
          obtain ⟨e, he, rfl, -⟩ := hentry k
          exact (keeps_readSlot he).typed
        exact .emit hread
      | external name ty => exact ensures_externalValue hP name ty g
      | binary op left right =>
        have hleft := hvalue huses (c := left) (by simp)
        have hright := hvalue huses (c := right) (by simp)
        rw [exprNode]
        split
        · exact ensures_logical hP op hleft hright g
        · refine (hleft g).bind fun l g₁ _ hl => (hright g₁).bind fun r g₂ hgains hr => ?_
          exact ensures_binaryValues hP op (fun k => (hgains k).typed (hl k)) hr
      | unary op operand => exact (hvalue huses (by simp) g).bind fun v g₁ _ hv => ensures_unaryValue hP op hv
      | crement op post target =>
        exact (htarget huses (by simp) g).bind fun p g₁ _ hp => ensures_stepPlace hP op post hp
      | assign target value compound =>
        refine (htarget huses (c := target) (by simp) g).bind fun p g₁ _ hp => ?_
        refine (hvalue huses (c := value) (by simp) g₁).bind fun v g₂ hgains hv => ?_
        exact ensures_assignPlace hP _ compound (fun k => (hgains k).place (hp k)) hv
      | cast ty operand =>
        refine (hvalue huses (by simp) g).bind fun v g₁ _ hv => ?_
        split
        · exact .emit fun k => (keeps_convert (hv k) ty).typed
        · exact ensures_fail hP "cannot cast " (by decide) (by simp)
      | call name args =>
        refine ensures_callee hP fun group hgroup => ?_
        refine (ensures_exprs (fun t ht => hvalue huses (by simpa using ht)) g).bind
          fun values g₁ _ hvalues => ensures_callValues hP hlibrary hgroup hvalues
      | pack items =>
        refine (ensures_exprs (fun t ht => hvalue huses (by simpa using ht)) g).bind
          fun values g₁ _ hvalues => ensures_packValues hP hvalues
      | unpack array index column =>
        rw [exprNode_unpack]
        refine (hvalue huses (c := array) (by simp) g).bind fun container g₁ _ _ => ?_
        refine (ensures_componentIndex hP container (hvalue huses (c := index) (by simp)) ?_ g₁).bind
          fun i g₂ _ _ => .emit fun _ => (keeps_extract container i).typed
        exact Option.forall_mem_map.mpr fun t ht => hvalue huses (by cases ht; simp)
      | block | conditional | loop | jump | declare =>
        exact ensures_fail hP "statement used as an expression" (by decide) List.prefix_rfl
    · intro huses g
      cases content with
      | localName name => exact (ensures_localOperand hP name g).bind fun o g₁ _ ho => .pure ho
      | field name ty inferred writable =>
        refine (hslot true (huses _ (Term.mem_fieldUses ..)) g).bind fun slot g₁ _ hentry => .pure fun k => ?_
        obtain ⟨e, he, hty, hwritable⟩ := hentry k
        exact ⟨e, he, hty, hwritable rfl⟩
      | unpack array index column =>
        rw [place_unpack]
        refine (htarget huses (c := array) (by simp) g).bind fun base g₁ _ hbase => ?_
        refine (PartEnsures.emit fun k => keeps_load (hbase k)).bind fun container g₂ hgains₂ hcontainer => ?_
        refine (ensures_componentIndex hP container (hvalue huses (c := index) (by simp)) ?_ g₂).bind
          fun i g₃ hgains₃ _ => .pure fun k =>
            ⟨((hgains₂ k).trans (hgains₃ k)).place (hbase k), (hgains₃ k).typedAs (hcontainer k)⟩
        exact Option.forall_mem_map.mpr fun t ht => hvalue huses (by cases ht; simp)
      | _ =>
        rw [place] <;> first
          | exact ensures_fail hP "expression is not assignable" (by decide) List.prefix_rfl
          | simp

/-- Whatever term is generated as a statement: what is reported is as stated if it is for the slots of the
fields that are used in the term. -/
theorem ensures_stmt (t : Term) (huses : ∀ u ∈ t.fieldUses false, Q u) :
    EnsuresStep K ctx.library.Placing P ctx.registry (stmt ctx t) := by
  induction t using Term.children_induction with
  | missing id =>
    intro g
    rw [stmt]
    exact .pure fun _ => trivial
  | node id content ih =>
    have hchild {c : Term} (hc : (false, c) ∈ content.marked false) :
        EnsuresStep K ctx.library.Placing P ctx.registry (stmt ctx c) :=
      ih c (Node.mem_children_of_marked hc) (Term.forall_fieldUses_of_marked huses hc)
    have hexpr (t : Term) := (ensures_expr hP hQ hregistry hlibrary t).1
    have hvalue {c : Term} (hc : (false, c) ∈ content.marked false) :
        EnsuresValue K ctx.library.Placing P ctx.registry (expr ctx c) :=
      hexpr c (Term.forall_fieldUses_of_marked huses hc)
    have hexpression (hstmt : stmt ctx (.node id content) = (do
        let _ ← (exprNode ctx id content).run
        return ())) : EnsuresStep K ctx.library.Placing P ctx.registry (stmt ctx (.node id content)) := by
      intro g
      have hnode := hexpr (.node id content) huses g
      rw [hstmt]
      exact Ensures.bind hnode fun _ _ _ _ => .pure fun _ => trivial
    cases content with
    | block statements =>
      refine fun _ => .inScope (ensures_stmts fun t ht => hchild ?_)
      simpa using ht
    | conditional test thenBranch elseBranch =>
      exact ensures_conditional hP (hvalue (by simp))
        (hchild (by simp)) (hchild (by simp))
    | loop kind start test step body =>
      rw [stmt_loop]
      refine ensures_loop hP kind ?_ ?_ ?_ (hchild (c := body) (by simp))
      · cases start with
        | none => exact fun _ => .pure fun _ => trivial
        | some start => exact hchild (by simp)
      · exact Option.forall_mem_map.mpr fun test htest => hvalue (by cases htest; simp)
      · cases step with
        | none => exact fun _ => .pure fun _ => trivial
        | some step => exact hchild (by simp)
    | jump word =>
      intro g
      refine .get_bind (fun _ => rfl) fun _ => ?_
      split
      · refine .push (hP _ ?_)
        exact Diagnostic.plain_of_opening "'" (by simp [Diagnostic.error]) (by simp [Diagnostic.error]) (by decide)
      · exact .build (fun _ => inferInstance) fun _ => keeps_leaf (i := .jump word) rfl (.of_ne (by simp) (by simp))
    | declare ty name start =>
      intro g
      refine Ensures.bind (ensures_declare hP ty name ?_ g) fun _ _ _ _ => .pure fun _ => trivial
      exact Option.forall_mem_map.mpr fun start hstart => hvalue (by cases hstart; simp)
    | _ => exact hexpression (by rw [stmt] <;> simp)

end

/-- The sink gathers only what is as stated while a statement is generated. -/
theorem reports_of_uses (hP : ∀ d : Diagnostic, d.Plain → P d) {Q : FieldUse → Prop}
    (hQ : ∀ u write, Q u → (write = true → u.writable = true) → PartReports P (fieldSlot ctx u.id u.name u.ty write))
    (t : Term) (huses : ∀ u ∈ t.fieldUses false, Q u) (g : Generation) : Sink.Gathers P g.sink (stmt ctx t g).2.sink :=
  Reports.gathers (fun g => (ensures_stmt hP hQ False.elim False.elim t huses g False.elim).1) g

/-- About the slots of fields, nothing is reported about the backend. -/
theorem partReports_fieldSlot {name : String} {ty : Ty} {write : Bool} :
    PartReports (·.kind ≠ .backend) (fieldSlot ctx id name ty write) :=
  fun _ => (ensures_fieldSlot (N := False) (r := ctx.registry) False.elim name ty write False.elim).1

/-- Whatever term is generated as a place, nothing is reported about the backend. -/
theorem partReports_place (t : Term) : PartReports (·.kind ≠ .backend) (place ctx t) := fun g =>
  ((ensures_expr (fun _ hd => hd.1) (fun _ _ (_ : True) _ => partReports_fieldSlot) False.elim False.elim t).2
    (fun _ _ => trivial) g False.elim).1

/-- Whatever term is generated as a statement, nothing is reported about the backend. -/
theorem ensures (hregistry : K → ctx.registry.Numbered) (hlibrary : K → ctx.library.KeepsTo ctx.registry) (t : Term) :
    EnsuresStep K ctx.library.Placing (·.kind ≠ .backend) ctx.registry (stmt ctx t) :=
  ensures_stmt (fun _ hd => hd.1) (fun _ _ (_ : True) _ => partReports_fieldSlot) hregistry hlibrary t fun _ _ => trivial

theorem reports (ctx : Context) (t : Term) : Reports (·.kind ≠ .backend) (stmt ctx t) :=
  fun g => (ensures False.elim False.elim t g False.elim).1

end Generate

namespace Code

/-- Generation of a program reports nothing about the backend. -/
theorem gathers_generate (ctx : Context) (program : Term) (sink : Sink) :
    Sink.Gathers (·.kind ≠ .backend) sink (generate ctx program sink).2 :=
  (Generate.reports ctx program).gathers _

/-- The code of a program and what is reported about it do not depend on the sink. -/
theorem exists_generate (ctx : Context) (program : Term) :
    ∃ code ds, ∀ sink, generate ctx program sink = (code, sink.extend ds) := by
  obtain ⟨ds, -, hds⟩ := Generate.reports ctx program (ctx.start {})
  refine ⟨(Generate.stmt ctx program (ctx.start {})).2.builder.finish, ds, fun sink => ?_⟩
  exact congrArg (fun r => (r.2.builder.finish, r.2.sink)) (hds sink)

/-- All code that is generated for a program keeps to the registry. -/
theorem registered_generate (ctx : Context) (hregistry : ctx.registry.Numbered)
    (hlibrary : ctx.library.KeepsTo ctx.registry) (program : Term) (sink : Sink) :
    Instr.AllRegistered ctx.registry (generate ctx program sink).1.regs (generate ctx program sink).1.body := by
  obtain ⟨⟨code, hadds, hcode⟩, -, -⟩ := (Generate.ensures (fun _ : True => hregistry) (fun _ => hlibrary) program
    (ctx.start sink) nofun).2.2 trivial
  exact hadds.finish.1 ▸ hcode

end Code

end Elementwise
