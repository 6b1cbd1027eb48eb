import Elementwise.Proofs.Function.Standard
import Elementwise.Proofs.Generate.Relation
import Elementwise.Proofs.Tree.Condition

/-!
# Generated code is sound

By induction over the rules of generation: whatever is generated adds sound code to the builder. An
operand is written where it is given back, and so are the locals that are in scope, as long as no branch
of a conditional is itself a declaration, whose local would outlive the branch.
-/

namespace Elementwise

open Builder

/-- What generation looks things up in keeps to a regime. -/
structure Context.Sound (σ : Regime) (ctx : Context) : Prop where
  slots : ∀ name e, ctx.registry.get? name = some e → σ.slots e.index e.ty
  custom : σ.typed → ∀ name v, ctx.custom.get? name = some v → v.HasType v.ty
  library : ∀ name g, ctx.library.get? name = some g → ∀ f ∈ g.functions, f.Sound σ

/-- The locals in scope are ready. -/
def Scopes.Ready (σ : Regime) (b : Builder) (W : Set Reg) (scopes : Scopes) : Prop :=
  ∀ scope ∈ scopes, ∀ entry ∈ scope, entry.2.Ready σ b W

namespace Scopes

theorem tail_declare (scopes : Scopes) (name : String) (o : Operand) : (scopes.declare name o).tail = scopes.tail := by
  cases scopes <;> rfl

variable {σ : Regime} {b b' : Builder} {W W' : Set Reg} {scopes : Scopes}

theorem Ready.since (h : scopes.Ready σ b W) (hsince : b.Since W b' W') : scopes.Ready σ b' W' :=
  fun scope hscope entry hentry => (h scope hscope entry hentry).since hsince

/-- A local that is found is ready. -/
theorem Ready.find? (h : scopes.Ready σ b W) {name : String} {o : Operand} (hfind : scopes.find? name = some o) :
    o.Ready σ b W := by
  obtain ⟨scope, hscope, hlookup⟩ := List.exists_of_findSome?_eq_some hfind
  obtain ⟨before, after, rfl, -⟩ := List.lookup_eq_some_iff.mp hlookup
  exact h _ hscope (name, o) (by simp)

/-- One more local that is ready. -/
theorem Ready.declare (h : scopes.Ready σ b W) {o : Operand} (ho : o.Ready σ b W) (name : String) :
    (scopes.declare name o).Ready σ b W := by
  cases scopes with
  | nil => exact h
  | cons scope rest =>
    refine List.forall_mem_cons.mpr ⟨List.forall_mem_cons.mpr ⟨ho, h scope List.mem_cons_self⟩, fun s hs => ?_⟩
    exact h s (List.mem_cons_of_mem _ hs)

theorem Ready.push (h : scopes.Ready σ b W) : Scopes.Ready σ b W ([] :: scopes) :=
  List.forall_mem_cons.mpr ⟨nofun, h⟩

theorem Ready.pop (h : scopes.Ready σ b W) : Scopes.Ready σ b W scopes.tail :=
  fun scope hscope => h scope (List.mem_of_mem_tail hscope)

end Scopes

namespace Generate

variable {σ : Regime} {ctx : Context} {scopes scopes' : Scopes} {W : Set Reg} {b b' : Builder}

variable {J : Set Jump} {name : String} {o : Operand}

/-- The terms that a part is generated from. -/
def Part.terms : Part → List Term
  | .value t _ | .place t _ | .index _ t _ => [t]
  | .values ts _ => ts
  | .position _ t column _ => t :: column.toList

/-- What a part stands for is ready. -/
def Part.Ready (σ : Regime) (b : Builder) (W : Set Reg) : Part → Prop
  | .value _ o => o.Ready σ b W
  | .values _ os => ∀ o ∈ os, o.Ready σ b W
  | .place _ p => p.Ready σ b W
  | .index _ _ o | .position _ _ _ o => ReadyAs σ .int32 o b W

/-- Every node of some terms is typable, if types of values are tracked. -/
def Typed (σ : Regime) (ts : List Term) : Prop := σ.typed → ∀ t ∈ ts, t.Everywhere Node.Typable

namespace Typed

theorem sublist {ts ts' : List Term} (h : Typed σ ts) (hsub : ts' ⊆ ts) : Typed σ ts' :=
  fun htyped t ht => h htyped t (hsub ht)

/-- Some children of a node. -/
theorem children {id : NodeId} {content : Node Term} {ts : List Term} (h : Typed σ [.node id content])
    (hsub : ts ⊆ content.children) : Typed σ ts :=
  fun htyped _ ht => (h htyped _ List.mem_cons_self).below (hsub ht)

/-- A child of a node. -/
theorem child {id : NodeId} {content : Node Term} {c : Term} (h : Typed σ [.node id content])
    (hc : c ∈ content.children) : Typed σ [c] :=
  h.children (by simpa using hc)

end Typed

/-- A value of the host that is used with a type. -/
theorem HostValue.hasType {custom : CustomData} {ty : Ty} {v : Value} (h : HostValue custom name ty v)
    (hty : ty.Regular) (hcustom : ∀ name v, custom.get? name = some v → v.HasType v.ty) :
    v.HasType v.ty ∧ v.ty.Regular := by
  rcases h with ⟨-, rfl⟩ | ⟨hget, rfl⟩
  · rw [(Value.hasType_zero ty).ty_eq hty]
    exact ⟨Value.hasType_zero ty, hty⟩
  · exact ⟨hcustom name v hget, hty⟩

/-- A scalar as a truth value. -/
theorem Truth.yields {v : Operand} (h : Truth v o b b') (hv : v.Ready σ b W) :
    Yields σ J W b b' (ReadyAs σ .bool o b') := by
  exact (makes_convert hv fun _ => ⟨Ty.convertsTo_scalar h.1 .bool, trivial⟩).yields h.2

/-- An operand that is converted to a type. -/
theorem Coerced.yields {v : Operand} {ty : Ty} (h : Coerced v ty o b b') (hv : v.Ready σ b W)
    (hty : σ.typed → ty.Regular) : Yields σ J W b b' (ReadyAs σ ty o b') :=
  (makes_convert hv fun htyped => ⟨h.1, hty htyped⟩).yields h.2

/-- An operator on two operands. -/
theorem Operated.yields {op : BinaryOp} {l r : Operand} (h : Operated op l r o b b') (hl : l.Ready σ b W)
    (hr : r.Ready σ b W) (hop : σ.typed → op.opClass ≠ .logical) : Yields σ J W b b' (o.Ready σ b') := by
  obtain ⟨common, hfit, hcommon, hbuild⟩ := h
  exact (makes_applyBinary hl hr hfit hcommon hop).yields hbuild

/-- The function that a call takes is sound. -/
theorem Resolved.sound {values args : List Operand} {f : Function} (h : Resolved ctx name values f args b b')
    (hctx : ctx.Sound σ) : f.Sound σ := by
  obtain ⟨group, resolution, hget, -, hresolve, rfl, -⟩ := h
  exact hctx.library name group hget _ (Group.resolve_eq_ok hresolve).1

/-- The operands of a call are ready with the types of the parameters. -/
theorem Resolved.yields {values args : List Operand} {f : Function} (h : Resolved ctx name values f args b b')
    (hctx : ctx.Sound σ) (hvalues : ∀ v ∈ values, v.Ready σ b W) :
    Yields σ J W b b' fun W' => (∀ a ∈ args, a.Ready σ b' W') ∧ args.map Operand.ty = f.signature.params := by
  have hsound := h.sound hctx
  obtain ⟨group, resolution, -, -, hresolve, rfl, hbuild⟩ := h
  exact (makes_resolved hresolve hsound hvalues).yields hbuild

/-- A logical operator: the right operand is evaluated in a branch on the left one. -/
theorem yields_logical {op : BinaryOp} {l lc result r rc : Operand} {body : List Instr}
    {b₁ b₂ b₃ b₄ b₅ b₆ b₇ b₈ b₉ b₁₀ : Builder}
    (hleft : Yields σ ∅ W b₁ b₂ (l.Ready σ b₂)) (hl : Truth l lc b₂ b₃)
    (hresult : alloc .bool b₃ = (result, b₄)) (hassign : assign result lc b₄ = ((), b₅))
    (hright : ∀ W', b₁.Since W b₅ W' → Yields σ ∅ W' (beginBlock b₅).2 b₆ (r.Ready σ b₆)) (hr : Truth r rc b₆ b₇)
    (hreassign : assign result rc b₇ = ((), b₈)) (hend : endBlock b₈ = (body, b₉))
    (hbranch : Builder.emit (.branch lc.reg (if op = .and then body else []) (if op = .and then [] else body)) b₉ = ((), b₁₀)) :
    Yields σ ∅ W b₁ b₁₀ (result.Ready σ b₁₀) := by
  refine hleft.bind fun W₂ hsince₂ hready₂ => (hl.yields hready₂).bind fun W₃ hsince₃ hready₃ => ?_
  refine ((makes_alloc .bool).yields hresult).bind fun W₄ hsince₄ ⟨htype, hty⟩ => ?_
  refine ((makes_assign htype (hready₃.since hsince₄)).yields hassign).bind fun W₅ hsince₅ hwritten => ?_
  have hlater := hsince₂.trans (hsince₃.trans (hsince₄.trans hsince₅))
  have hbody : Yields σ ∅ W₅ (beginBlock b₅).2 b₈ fun _ => True := by
    refine (hright W₅ hlater).bind fun W₆ hsince₆ hready₆ => ?_
    refine (hr.yields hready₆).bind fun W₇ hsince₇ hready₇ => ?_
    have htype₇ := hsince₇.types _ _ (hsince₆.types _ _ (hsince₅.types _ _ htype))
    exact ((makes_assign htype₇ hready₇).yields hreassign).weaken subset_rfl fun _ _ _ => trivial
  obtain ⟨hadds, -, W₈, -, hsound, -⟩ := hbody.block hend
  have hsince₉ : b₅.Since W₅ b₉ W₅ := ⟨hadds.types, subset_rfl⟩
  have hempty : Instr.Sound σ b₉.regs ∅ W₅ [] W₅ := .nil subset_rfl
  have hemit : Yields σ ∅ W₅ b₉ b₁₀ fun W' => W' = W₅ := by
    have hc := (hready₃.since hsince₄).since (hsince₅.trans hsince₉)
    split at hbranch
    · exact yields_branch hc hsound hempty hbranch
    · exact yields_branch hc hempty hsound hbranch
  refine (Yields.after hadds hemit).weaken subset_rfl fun W' hsince heq => ?_
  have hready : result.Ready σ b₅ W₅ := ⟨hty ▸ hsince₅.types _ _ htype, hwritten, fun _ => hty ▸ trivial⟩
  exact hready.since hsince

/-- Whatever is generated for an expression is sound, and ready where it is given back. -/
theorem Emits.yields (hctx : ctx.Sound σ) {part : Part} (h : Emits ctx scopes part b b') (htyped : Typed σ part.terms)
    (hscopes : scopes.Ready σ b W) : Yields σ ∅ W b b' fun W' => part.Ready σ b' W' := by
  induction h generalizing W with
  | @literal id l o b b' hbuild =>
    have hregular : l.toValue.ty.Regular := by cases l <;> trivial
    exact ((makes_constant fun _ => ⟨l.hasType, hregular⟩).yields hbuild).weaken subset_rfl fun _ _ ho => ho.1
  | localName hfind => exact .refl (hscopes.find? hfind)
  | field hentry hbuild =>
    refine ((makes_readSlot (hctx.slots _ _ hentry) fun h => ?_).yields hbuild).weaken subset_rfl fun _ _ ho => ho.1
    exact ((htyped h _ List.mem_cons_self).here.nameable _ List.mem_cons_self).regular
  | external hvalue hbuild =>
    refine ((makes_constant fun h => ?_).yields hbuild).weaken subset_rfl fun _ _ ho => ho.1
    exact hvalue.hasType ((htyped h _ List.mem_cons_self).here.nameable _ List.mem_cons_self).regular (hctx.custom h)
  | logical hop hleft hl hresult hassign hright hr hreassign hend hbranch ihleft ihright =>
    refine yields_logical (ihleft (htyped.child (by simp)) hscopes) hl hresult hassign
      (fun W' hsince => ?_) hr hreassign hend hbranch
    exact ihright (htyped.child (by simp)) (hscopes.since hsince.beginBlock)
  | binary hop hleft hright hbuild ihleft ihright =>
    refine (ihleft (htyped.child (by simp)) hscopes).bind fun W₂ hsince₂ hl => ?_
    refine (ihright (htyped.child (by simp)) (hscopes.since hsince₂)).bind fun W₃ hsince₃ hr => ?_
    exact hbuild.yields (Operand.Ready.since hl hsince₃) hr fun _ => hop
  | unary hoperand hty hbuild ih =>
    refine (ih (htyped.child (by simp)) hscopes).bind fun W₂ hsince₂ hv => ?_
    exact (makes_applyUnary hv hty).yields hbuild
  | crement htarget hscalar hbool hbuild ih =>
    refine (ih (htyped.child (by simp)) hscopes).bind fun W₂ hsince₂ hp => ?_
    exact (makes_step hp hscalar hbool).yields hbuild
  | assign htarget hvalue hcoerce hstore ihtarget ihvalue =>
    refine (ihtarget (htyped.child (by simp)) hscopes).bind fun W₂ hsince₂ hp => ?_
    refine (ihvalue (htyped.child (by simp)) (hscopes.since hsince₂)).bind fun W₃ hsince₃ hv => ?_
    have hp₃ := Place.Ready.since hp hsince₃
    refine (hcoerce.yields hv hp₃.regular).bind fun W₄ hsince₄ ho => ?_
    exact ((makes_store (hp₃.since hsince₄) ho).yields hstore).weaken subset_rfl fun W₅ hsince₅ _ => ho.1.since hsince₅
  | @compound id target value op _ _ _ _ _ _ _ _ _ _ _ _ _ htarget hvalue hload hbuild hcoerce hstore ihtarget ihvalue =>
    have hop (h : σ.typed) : op.opClass ≠ .logical := (htyped h _ List.mem_cons_self).here.compound op rfl
    refine (ihtarget (htyped.child (by simp)) hscopes).bind fun W₂ hsince₂ hp => ?_
    refine (ihvalue (htyped.child (by simp)) (hscopes.since hsince₂)).bind fun W₃ hsince₃ hv => ?_
    have hp₃ := Place.Ready.since hp hsince₃
    refine ((makes_load hp₃).yields hload).bind fun W₄ hsince₄ hcurrent => ?_
    refine (hbuild.yields hcurrent.1 (Operand.Ready.since hv hsince₄) hop).bind fun W₅ hsince₅ hw => ?_
    refine (hcoerce.yields hw hp₃.regular).bind fun W₆ hsince₆ ho => ?_
    have hp₆ := hp₃.since (hsince₄.trans (hsince₅.trans hsince₆))
    exact ((makes_store hp₆ ho).yields hstore).weaken subset_rfl fun W₇ hsince₇ _ => ho.1.since hsince₇
  | cast hoperand hcoerce ih =>
    refine (ih (htyped.child (by simp)) hscopes).bind fun W₂ hsince₂ hv => ?_
    refine (hcoerce.yields hv fun h => ?_).weaken subset_rfl fun _ _ ho => ho.1
    exact ((htyped h _ List.mem_cons_self).here.nameable _ List.mem_cons_self).regular
  | native hargs hresolve hbody hbuild ih =>
    have hsound := hresolve.sound hctx
    refine (ih (htyped.children fun _ hc => hc) hscopes).bind fun W₂ hsince₂ hvalues => ?_
    refine (hresolve.yields hctx hvalues).bind ?_
    rintro W₃ hsince₃ ⟨hready, htypes⟩
    refine ((makes_callNative hready fun h => ⟨?_, hsound.ret⟩).yields hbuild).weaken subset_rfl fun _ _ ho => ho.1
    have himplementation := hsound.implementation
    rw [hbody] at himplementation
    exact htypes ▸ himplementation h
  | inline hargs hresolve hgenerator hbuild hret ih =>
    have himplementation := (hresolve.sound hctx).implementation
    rw [hgenerator] at himplementation
    refine (ih (htyped.children fun _ hc => hc) hscopes).bind fun W₂ hsince₂ hvalues => ?_
    refine (hresolve.yields hctx hvalues).bind ?_
    rintro W₃ hsince₃ ⟨hready, htypes⟩
    exact (Makes.yields (himplementation _ _ _ _ hready htypes) hbuild).weaken subset_rfl fun _ _ ho => ho _ rfl
  | inlineVoid hargs hresolve hgenerator hbuild hret halloc ih =>
    exact absurd hret ((hresolve.sound hctx).value _ hgenerator)
  | pack hitems hty hbuild ih =>
    refine (ih (htyped.children fun _ hc => hc) hscopes).bind fun W₂ hsince₂ hvalues => ?_
    exact (makes_applyPack hvalues hty).yields hbuild
  | unpack harray hindex hbuild iharray ihindex =>
    refine (iharray (htyped.child (by simp)) hscopes).bind fun W₂ hsince₂ hcontainer => ?_
    refine (ihindex (htyped.children (by simp [Part.terms])) (hscopes.since hsince₂)).bind
      fun W₃ hsince₃ hi => ?_
    exact ((makes_extract (Operand.Ready.since hcontainer hsince₃) hi).yields hbuild).weaken subset_rfl fun _ _ ho => ho.1
  | nil => exact .refl (by rintro _ ⟨⟩)
  | cons hhead htail ihhead ihtail =>
    refine (ihhead (htyped.sublist (by simp [Part.terms])) hscopes).bind fun W₂ hsince₂ ho => ?_
    refine (ihtail (htyped.sublist (by simp [Part.terms])) (hscopes.since hsince₂)).weaken subset_rfl
      fun W₃ hsince₃ hos => ?_
    exact List.forall_mem_cons.mpr ⟨Operand.Ready.since ho hsince₃, hos⟩
  | placeLocal hfind => exact .refl (hscopes.find? hfind)
  | placeField hentry hwritable =>
    refine .refl ⟨hctx.slots _ _ hentry, fun h => ?_⟩
    exact ((htyped h _ List.mem_cons_self).here.nameable _ List.mem_cons_self).regular
  | placeComponent hbase hload hindex ihbase ihindex =>
    refine (ihbase (htyped.child (by simp)) hscopes).bind fun W₂ hsince₂ hp => ?_
    refine ((makes_load hp).yields hload).bind fun W₃ hsince₃ hcontainer => ?_
    refine (ihindex (htyped.children (by simp [Part.terms])) (hscopes.since (hsince₂.trans hsince₃))).weaken
      subset_rfl fun W₄ hsince₄ hi => ?_
    exact ⟨Place.Ready.since hp (hsince₃.trans hsince₄), hcontainer.since hsince₄, hi⟩
  | index hrange hvalue hinteger hbuild ih =>
    refine (ih htyped hscopes).bind fun W₂ hsince₂ hv => ?_
    exact (makes_convert hv fun _ => ⟨Ty.convertsTo_scalar (Ty.isScalar_of_isIntegerScalar hinteger) .int32, trivial⟩).yields
      hbuild
  | vectorPosition hty hindex ih | matrixPosition hty hindex ih => exact ih htyped hscopes
  | entryPosition hty hrow hcolumn hbuild ihrow ihcolumn =>
    refine (ihrow (htyped.sublist (by simp [Part.terms])) hscopes).bind fun W₂ hsince₂ hi => ?_
    refine (ihcolumn (htyped.sublist (by simp [Part.terms])) (hscopes.since hsince₂)).bind fun W₃ hsince₃ hj => ?_
    exact (makes_entryIndex (ReadyAs.since hi hsince₃) hj).yields hbuild

/-- The condition of a loop. -/
theorem Tests.yields (hctx : ctx.Sound σ) {test : Option Term} {o : Option Operand}
    (h : Tests ctx scopes test o b b') (htyped : Typed σ test.toList) (hscopes : scopes.Ready σ b W) :
    Yields σ ∅ W b b' fun W' => ∀ c ∈ o, ReadyAs σ .bool c b' W' := by
  cases h with
  | always => exact .refl nofun
  | condition hvalue htruth =>
    refine (hvalue.yields hctx htyped hscopes).bind fun W₂ hsince₂ hc => ?_
    exact (htruth.yields hc).weaken subset_rfl fun _ _ ho _ hc => Option.some.inj hc ▸ ho

/-- The terms that statements are generated from. -/
def Phrase.terms : Phrase → List Term
  | .one t => [t]
  | .list ts => ts
  | .maybe t => t.toList

/-- None of the statements is a declaration. -/
def Phrase.Inner (phrase : Phrase) : Prop := ∀ t ∈ phrase.terms, t.kind? ≠ some .declare

variable {depth : Nat} {phrase : Phrase}

/-- Statements only declare locals in the innermost scope; other than declarations they declare none, if
no branch of a conditional is a declaration. -/
theorem Issues.keepsScopes (h : Issues ctx depth phrase scopes b scopes' b') :
    scopes'.tail = scopes.tail ∧
      ((∀ t ∈ phrase.terms, t.Everywhere Node.Scoped) → phrase.Inner → scopes' = scopes) := by
  induction h with
  | absent | nil | jump | expression => exact ⟨rfl, fun _ _ => rfl⟩
  | present h ih => exact ih
  | cons hhead htail ihhead ihtail =>
    refine ⟨ihtail.1.trans ihhead.1, fun hscoped hinner => ?_⟩
    simp only [Phrase.Inner, Phrase.terms, List.forall_mem_cons] at hscoped hinner
    exact (ihtail.2 hscoped.2 hinner.2).trans (ihhead.2 (by simpa [Phrase.terms] using hscoped.1)
      (by simpa [Phrase.Inner, Phrase.terms] using hinner.1))
  | block h ih =>
    have hscopes : _ = _ := ih.1
    exact ⟨congrArg List.tail hscopes, fun _ _ => hscopes⟩
  | conditional htest htruth hthen hthenEnd helse helseEnd hbranch ihthen ihelse =>
    refine ⟨ihelse.1.trans ihthen.1, fun hscoped _ => ?_⟩
    have hscoped := hscoped _ List.mem_cons_self
    have hbranch {c : Term} (hc : c ∈ _) := hscoped.below (c := c) hc
    refine (ihelse.2 ?_ ?_).trans (ihthen.2 ?_ ?_)
    · simpa [Phrase.terms] using hbranch (by simp)
    · simpa [Phrase.Inner, Phrase.terms] using hscoped.here _ (by simp [Node.branches])
    · simpa [Phrase.terms] using hbranch (by simp)
    · simpa [Phrase.Inner, Phrase.terms] using hscoped.here _ (by simp [Node.branches])
  | loop hstart htest htestEnd hbody hbodyEnd hstep hstepEnd hloop ihstart ihbody ihstep =>
    have hscopes : _ = _ := ihstep.1.trans (ihbody.1.trans ihstart.1)
    exact ⟨congrArg List.tail hscopes, fun _ _ => hscopes⟩
  | declareZero | declareValue =>
    exact ⟨Scopes.tail_declare _ _ _, fun _ hinner => absurd rfl (hinner _ List.mem_cons_self)⟩

/-- Every register counts as written, or no branch of a conditional in these terms is a declaration. -/
def Strict (W : Set Reg) (ts : List Term) : Prop := (∀ r, r ∈ W) ∨ ∀ t ∈ ts, t.Everywhere Node.Scoped

namespace Strict

variable {W' : Set Reg} {ts ts' : List Term}

theorem mono (h : Strict W ts) (hle : W ⊆ W') : Strict W' ts := h.imp_left fun hall r => hle (hall r)

theorem sublist (h : Strict W ts) (hsub : ts' ⊆ ts) : Strict W ts' := h.imp_right fun hscoped t ht => hscoped t (hsub ht)

theorem children {id : NodeId} {content : Node Term} (h : Strict W [.node id content]) (hsub : ts ⊆ content.children) :
    Strict W ts := h.imp_right fun hscoped _ ht => (hscoped _ List.mem_cons_self).below (hsub ht)

end Strict

/-- The locals that are in scope after a statement are ready where it was not run: either every register
is, or the statement declared none. -/
theorem Issues.ready_after {t : Term} {W' : Set Reg} {b₁ b₂ : Builder}
    (h : Issues ctx depth (.one t) scopes b₁ scopes' b₂) (hstrict : Strict W [t])
    (hinner : (∀ r, r ∈ W) ∨ t.kind? ≠ some .declare) (hscopes : scopes.Ready σ b W)
    (hscopes' : scopes'.Ready σ b₂ W') (htypes : KeepsTypes b₂.regs b.regs) : scopes'.Ready σ b W := by
  have hall (hall : ∀ r, r ∈ W) : scopes'.Ready σ b W := by
    intro scope hscope entry hentry
    have hready := hscopes' scope hscope entry hentry
    exact ⟨htypes _ _ hready.type, hall _, hready.regular⟩
  rcases hstrict with hW | hscoped
  · exact hall hW
  · rcases hinner with hW | hinner
    · exact hall hW
    · rwa [h.keepsScopes.2 hscoped (by simpa [Phrase.Inner, Phrase.terms] using hinner)]

/-- A declaration makes no jumps, and its local is ready after it. -/
theorem Issues.yields_declaration (hctx : ctx.Sound σ) {t : Term} (h : Issues ctx depth (.one t) scopes b scopes' b')
    (hdeclares : t.kind? = some .declare) (htyped : Typed σ [t]) (hscopes : scopes.Ready σ b W) :
    Yields σ ∅ W b b' fun W' => scopes'.Ready σ b' W' := by
  cases h with
  | @declareZero _ id ty nameId name o u _ b₁ b₂ b₃ hnew hty halloc hbuild =>
    have hregular (h : σ.typed) := ((htyped h _ List.mem_cons_self).here.nameable ty List.mem_cons_self).regular
    refine ((makes_alloc ty).yields halloc).bind fun W₂ hsince₂ ⟨htype, hoty⟩ => ?_
    refine ((makes_emit (⟨rfl, rfl, rfl, rfl⟩ : Reading [] _ (.const o.reg (.zero ty))) ty nofun
      (fun d hd => Option.some.inj hd ▸ htype) fun _ => Value.hasType_zero ty).yields hbuild).weaken subset_rfl ?_
    refine fun W₃ hsince₃ hwritten => (hscopes.since (hsince₂.trans hsince₃)).declare ⟨?_, hwritten _ rfl, ?_⟩ name
    · exact hoty ▸ hsince₃.types _ _ htype
    · exact fun h => hoty ▸ hregular h
  | @declareValue _ id ty nameId name start v w o u _ b₁ b₂ b₃ b₄ b₅ hnew hty hstart hcoerce halloc hbuild =>
    have hregular (h : σ.typed) := ((htyped h _ List.mem_cons_self).here.nameable ty List.mem_cons_self).regular
    refine (hstart.yields hctx (htyped.child (by simp)) hscopes).bind fun W₂ hsince₂ hv => ?_
    refine (hcoerce.yields hv hregular).bind fun W₃ hsince₃ hw => ?_
    refine ((makes_alloc ty).yields halloc).bind fun W₄ hsince₄ ⟨htype, hoty⟩ => ?_
    refine ((makes_assign htype (hw.since hsince₄)).yields hbuild).weaken subset_rfl fun W₅ hsince₅ hwritten => ?_
    have hsince := hsince₂.trans (hsince₃.trans (hsince₄.trans hsince₅))
    refine (hscopes.since hsince).declare ⟨?_, hwritten, fun h => hoty ▸ hregular h⟩ name
    exact hoty ▸ hsince₅.types _ _ htype
  | block | conditional | loop | jump => cases hdeclares
  | @expression _ id content _ _ _ _ h =>
    cases content with
    | declare => cases h
    | _ => cases hdeclares

/-- Whatever is generated for statements is sound, and the locals in scope after them are ready. -/
theorem Issues.yields (hctx : ctx.Sound σ) (h : Issues ctx depth phrase scopes b scopes' b')
    (hJ : ∀ word, word = .return ∨ 0 < depth → word ∈ J) (htyped : Typed σ phrase.terms)
    (hstrict : Strict W phrase.terms) (hscopes : scopes.Ready σ b W) :
    Yields σ J W b b' fun W' => scopes'.Ready σ b' W' := by
  induction h generalizing J W with
  | absent | nil => exact .refl hscopes
  | present h ih => exact ih hJ htyped hstrict hscopes
  | cons hhead htail ihhead ihtail =>
    refine (ihhead hJ (htyped.sublist (by simp [Phrase.terms])) (hstrict.sublist (by simp [Phrase.terms])) hscopes).bind
      fun W₂ hsince₂ hscopes₂ => ?_
    refine ihtail hJ (htyped.sublist (by simp [Phrase.terms])) ?_ hscopes₂
    exact (hstrict.sublist (by simp [Phrase.terms])).mono hsince₂.written
  | block h ih =>
    refine (ih hJ (htyped.children fun _ hc => hc) (hstrict.children fun _ hc => hc) hscopes.push).weaken subset_rfl ?_
    exact fun _ _ hscopes' => hscopes'.pop
  | @conditional depth id test thenBranch elseBranch c o thenBody elseBody u scopes₁ scopes₂ scopes₃ b₁ b₂ b₃ b₄ b₅
      b₆ b₇ b₈ htest htruth hthen hthenEnd helse helseEnd hbranch ihthen ihelse =>
    refine ((htest.yields hctx (htyped.child (by simp)) hscopes).weaken (Set.empty_subset J)
      fun _ _ hc => hc).bind fun W₂ hsince₂ hc => (htruth.yields hc).bind fun W₃ hsince₃ ho => ?_
    have hscopes₃ := hscopes.since (hsince₂.trans hsince₃)
    have hstrict₃ := hstrict.mono (hsince₂.trans hsince₃).written
    have hbranches := hstrict₃.imp_right fun h => (h _ List.mem_cons_self).here
    -- The locals in scope after a branch are ready where the other branch was taken.
    have hstrictThen : Strict W₃ [thenBranch] := hstrict₃.children (by simp)
    obtain ⟨hadds₅, hregs₅, Wt, -, hsoundThen, hscopesThen⟩ := (ihthen hJ (htyped.child (by simp))
      hstrictThen (hscopes₃.since (Since.refl b₃ W₃).beginBlock)).block hthenEnd
    have hsince₅ : b₃.Since W₃ b₅ W₃ := ⟨hadds₅.types, subset_rfl⟩
    have hscopes₅ := hthen.ready_after hstrictThen (hbranches.imp_right fun h => h _ (by simp [Node.branches])) (hscopes₃.since hsince₅) hscopesThen
      (hregs₅ ▸ fun _ _ h => h)
    have hstrictElse : Strict W₃ [elseBranch] := hstrict₃.children (by simp)
    obtain ⟨hadds₇, hregs₇, We, -, hsoundElse, hscopesElse⟩ := (ihelse hJ (htyped.child (by simp))
      hstrictElse (hscopes₅.since (Since.refl b₅ W₃).beginBlock)).block helseEnd
    have hsince₇ : b₅.Since W₃ b₇ W₃ := ⟨hadds₇.types, subset_rfl⟩
    have hscopes₇ := helse.ready_after hstrictElse (hbranches.imp_right fun h => h _ (by simp [Node.branches])) (hscopes₅.since hsince₇) hscopesElse
      (hregs₇ ▸ fun _ _ h => h)
    have hemit := yields_branch (ho.since (hsince₅.trans hsince₇)) (hsoundThen.mono hadds₇.types) hsoundElse hbranch
    exact (hemit.weaken subset_rfl fun W' hsince _ => hscopes₇.since hsince).after (hadds₅.trans hadds₇)
  | @loop depth id kind start test step body o testBody loopBody stepBody u scopes₁ scopes₂ scopes₃ scopes₄ b₁ b₂ b₃ b₄
      b₅ b₆ b₇ b₈ b₉ hstart htest htestEnd hbody hbodyEnd hstep hstepEnd hloop ihstart ihbody ihstep =>
    have hparts : ∀ c, c ∈ start ∨ c ∈ test ∨ c ∈ step ∨ c = body →
        c ∈ (Node.loop kind start test step body).children := by simp
    have hstartParts : start.toList ⊆ _ := fun c hc => hparts c (.inl (Option.mem_toList.mp hc))
    have htestParts : test.toList ⊆ _ := fun c hc => hparts c (.inr (.inl (Option.mem_toList.mp hc)))
    have hstepParts : step.toList ⊆ _ := fun c hc => hparts c (.inr (.inr (.inl (Option.mem_toList.mp hc))))
    refine (ihstart hJ (htyped.children hstartParts) (hstrict.children hstartParts) hscopes.push).bind
      fun W₂ hsince₂ hscopes₂ => ?_
    have hstrict₂ := hstrict.mono hsince₂.written
    obtain ⟨hadds₄, hregs₄, Wt, -, hsoundTest, ho⟩ := (htest.yields hctx (htyped.children htestParts)
      (hscopes₂.since (Since.refl b₂ W₂).beginBlock)).block htestEnd
    have hscopes₄ := hscopes₂.since (⟨hadds₄.types, subset_rfl⟩ : b₂.Since W₂ b₄ W₂)
    have hstrictBody : Strict W₂ [body] := hstrict₂.children (by simp)
    have hstrictStep : Strict W₂ step.toList := hstrict₂.children hstepParts
    -- The step follows the body at once if the body is a declaration, and else sees no local of it.
    have hbody' : ∃ Jb Wb Ws, b₄.Adds [] b₆ ∧ Instr.Sound σ b₆.regs Jb W₂ loopBody Wb ∧
        (Ws ⊆ W₂ ∨ (Ws ⊆ Wb ∧ Jb = ∅)) ∧ W₂ ⊆ Ws ∧ scopes₃.Ready σ b₆ Ws := by
      by_cases hdeclares : body.kind? = some .declare
      · obtain ⟨hadds₆, hregs₆, Wb, hle, hsoundBody, hscopesBody⟩ := (hbody.yields_declaration hctx hdeclares
          (htyped.child (by simp)) (hscopes₄.since (Since.refl b₄ W₂).beginBlock)).block hbodyEnd
        refine ⟨∅, Wb, Wb, hadds₆, hsoundBody, .inr ⟨subset_rfl, rfl⟩, hle, hscopesBody.since ⟨?_, subset_rfl⟩⟩
        exact hregs₆ ▸ fun _ _ h => h
      · obtain ⟨hadds₆, hregs₆, Wb, -, hsoundBody, hscopesBody⟩ := (ihbody (fun _ _ => Set.mem_univ _)
          (htyped.child (by simp)) hstrictBody
          (hscopes₄.since (Since.refl b₄ W₂).beginBlock)).block hbodyEnd
        have hsince₆ : b₄.Since W₂ b₆ W₂ := ⟨hadds₆.types, subset_rfl⟩
        exact ⟨_, Wb, W₂, hadds₆, hsoundBody, .inl subset_rfl, subset_rfl, hbody.ready_after hstrictBody
          (.inr hdeclares) (hscopes₄.since hsince₆) hscopesBody (hregs₆ ▸ fun _ _ h => h)⟩
    obtain ⟨Jb, Wb, Ws, hadds₆, hsoundBody, hbetween, hle, hscopes₆⟩ := hbody'
    obtain ⟨hadds₈, -, Ws', -, hsoundStep, -⟩ := (ihstep hJ (htyped.children hstepParts)
      (hstrictStep.mono hle) (hscopes₆.since (Since.refl b₆ Ws).beginBlock)).block hstepEnd
    have hkeeps := (hadds₆.trans hadds₈).types
    have hemit := yields_loop (hsoundTest.mono hkeeps) (fun c hc => (ho c hc).since ⟨hregs₄ ▸ hkeeps, subset_rfl⟩)
      (hsoundBody.mono hadds₈.types) (hJ _ (.inl rfl)) hbetween hsoundStep hloop
    have hscopes' : scopes₄.tail = scopes₁ :=
      hstep.keepsScopes.1.trans (hbody.keepsScopes.1.trans hstart.keepsScopes.1)
    refine (hemit.after (hadds₄.trans (hadds₆.trans hadds₈))).weaken subset_rfl fun W' hsince _ => ?_
    exact hscopes' ▸ hscopes.since (hsince₂.trans hsince)
  | jump hdepth hbuild =>
    exact (yields_jump (hJ _ hdepth) hbuild).weaken subset_rfl fun W' hsince _ => hscopes.since hsince
  | declareZero hnew hty halloc hbuild =>
    exact (yields_declaration hctx (.declareZero hnew hty halloc hbuild : Issues ctx 0 _ _ _ _ _) rfl htyped hscopes).weaken
      (Set.empty_subset J) fun _ _ hscopes' => hscopes'
  | declareValue hnew hty hstart hcoerce halloc hbuild =>
    exact (yields_declaration hctx (.declareValue hnew hty hstart hcoerce halloc hbuild : Issues ctx 0 _ _ _ _ _) rfl htyped hscopes).weaken
      (Set.empty_subset J) fun _ _ hscopes' => hscopes'
  | expression h =>
    exact (h.yields hctx htyped hscopes).weaken (Set.empty_subset J) fun _ hsince _ => hscopes.since hsince

end Generate

end Elementwise
