import Elementwise.Proofs.Generate.Inversion

/-!
# Statements follow their rules

A statement that is generated without a new error is issued by the rules, and so is a whole program.
-/

namespace Elementwise.Generate

variable {α β : Type}

/-- A step ends as stated unless it reports an error, and takes no error back. -/
def Leads (x : GenerateM α) (g : Generation) (Q : α → Generation → Prop) : Prop :=
  g.sink.errors ≤ (x g).2.sink.errors ∧ ((x g).2.sink.errors = g.sink.errors → Q (x g).1 (x g).2)

namespace Leads

variable {g : Generation} {P : α → Generation → Prop} {Q : β → Generation → Prop}

variable {x : GenerateM α}

theorem pure {a : α} (h : P a g) : Leads (pure a) g P := ⟨Nat.le_refl _, fun _ => h⟩

theorem bind {f : α → GenerateM β} (hx : Leads x g P) (hf : ∀ a g', Leads (f a) g' fun b g'' => P a g' → Q b g'') :
    Leads (x >>= f) g Q := by
  have hnext := hf (x g).1 (x g).2
  refine ⟨Nat.le_trans hx.1 hnext.1, fun herrors => ?_⟩
  have hsame : (x g).2.sink.errors = g.sink.errors :=
    Nat.le_antisymm (Nat.le_trans hnext.1 (Nat.le_of_eq herrors)) hx.1
  exact hnext.2 (herrors.trans hsame.symm) (hx.2 hsame)

theorem mono {P' : α → Generation → Prop} (hx : Leads x g P) (h : ∀ a g', P a g' → P' a g') : Leads x g P' :=
  ⟨hx.1, fun herrors => h _ _ (hx.2 herrors)⟩

theorem modify {f : Generation → Generation} (hsink : (f g).sink = g.sink) :
    Leads (modify f) g fun _ g' => g' = f g := by
  refine ⟨?_, fun _ => rfl⟩
  exact Nat.le_of_eq (congrArg Sink.errors hsink.symm)

/-- A step of building. -/
theorem build {action : BuildM α} :
    Leads (build action) g fun a g' => action g.builder = (a, g'.builder) ∧ At g.scopes g.loopDepth g' :=
  ⟨Nat.le_refl _, fun _ => ⟨rfl, rfl, rfl⟩⟩

/-- A step in a block of its own. -/
theorem inBlock (hx : Leads x { g with builder := (Builder.beginBlock g.builder).2 } P) :
    Leads (inBlock x) g fun r g' => ∃ g₁, P r.1 g₁ ∧
      Builder.endBlock g₁.builder = (r.2, g'.builder) ∧ At g₁.scopes g₁.loopDepth g' :=
  ⟨hx.1, fun herrors => ⟨_, hx.2 herrors, rfl, rfl, rfl⟩⟩

/-- An error is reported. -/
theorem report {ctx : Context} {kind : ErrorKind} {node : NodeId} {message : String} {P : Unit → Generation → Prop} :
    Leads (report ctx kind node message) g P := by
  have h := Sink.errors_push_error (s := g.sink) (d := .error kind message (ctx.spanOf node)) rfl
  refine ⟨Nat.le_of_lt (Nat.lt_of_lt_of_eq (Nat.lt_succ_self _) h.symm), fun herrors => ?_⟩
  exact absurd (h.symm.trans herrors) (by omega)

end Leads

/-- A step that has a result or reports an error. -/
theorem Gives.leads {x : PartM α} {g : Generation} {P : α → Generation → Prop} (hx : Gives x g P) :
    Leads x.run g fun r g' => ∃ a, r = some a ∧ P a g' := by
  unfold Gives at hx
  unfold Leads
  generalize x.run g = r at hx ⊢
  rcases r with ⟨_ | a, g'⟩
  · exact ⟨Nat.le_of_lt hx, fun herrors => absurd (Nat.lt_of_lt_of_eq hx herrors) (Nat.lt_irrefl _)⟩
  · exact ⟨hx.1, fun _ => ⟨a, rfl, hx.2⟩⟩

/-- Statements are issued by the rules, from wherever generation is. -/
def IssuedAs (ctx : Context) (x : GenerateM Unit) (phrase : Phrase) : Prop :=
  ∀ g, Leads x g fun _ g' =>
    Issues ctx g.loopDepth phrase g.scopes g.builder g'.scopes g'.builder ∧ g'.loopDepth = g.loopDepth

section

variable {ctx : Context} {id : NodeId}

variable {start test : Option Term}

/-- Statements one after another. -/
theorem issuedAs_stmts {ts : List Term} (hts : ∀ t ∈ ts, IssuedAs ctx (stmt ctx t) (.one t)) :
    IssuedAs ctx (stmts ctx ts) (.list ts) := by
  induction ts with
  | nil =>
    intro g
    exact .pure ⟨.nil, rfl⟩
  | cons t ts ih =>
    intro g
    refine (hts t List.mem_cons_self g).bind fun _ g₁ => ?_
    refine (ih (fun s hs => hts s (List.mem_cons_of_mem _ hs)) g₁).mono fun _ g₂ ⟨htail, h₂⟩ ⟨hhead, h₁⟩ => ?_
    exact ⟨.cons hhead (h₁ ▸ htail), h₂.trans h₁⟩

/-- A block in a scope of its own. -/
theorem issuedAs_block {statements : List Term} (h : IssuedAs ctx (stmts ctx statements) (.list statements)) :
    IssuedAs ctx (stmt ctx (.node id (.block statements))) (.one (.node id (.block statements))) := by
  intro g
  refine (Leads.modify rfl).bind fun _ g₁ => ?_
  refine (h g₁).bind fun _ g₂ => ?_
  refine (Leads.modify rfl).mono fun _ g₃ hg₃ ⟨hlist, h₂⟩ hg₁ => ?_
  subst hg₃ hg₁
  exact ⟨.block hlist, h₂⟩

/-- A condition. -/
theorem leads_condition {t : Term} (hcomplete : t.Complete) (g : Generation) :
    Leads (OptionT.run do
      let c ← expr ctx t
      condition ctx c t.id) g fun r g' => ∃ o c b, r = some o ∧
        Emits ctx g.scopes (.value t c) g.builder b ∧ Truth c o b g'.builder ∧ At g.scopes g.loopDepth g' := by
  have hat : At g.scopes g.loopDepth g := ⟨rfl, rfl⟩
  have hgives : Gives (do
      let c ← expr ctx t
      condition ctx c t.id) g fun o g' => ∃ c b, Emits ctx g.scopes (.value t c) g.builder b ∧
        Truth c o b g'.builder ∧ At g.scopes g.loopDepth g' := by
    refine ((generatedAs t hcomplete).1 g hat).bind fun c g₁ ⟨hc, h₁⟩ => ?_
    exact (gives_truth h₁).mono fun o g₂ ⟨ho, h₂⟩ => ⟨c, _, hc, ho, h₂⟩
  exact hgives.leads.mono fun r g' ⟨o, hr, c, b, hc, ho, h'⟩ => ⟨o, c, b, hr, hc, ho, h'⟩

/-- A conditional, with each branch in a block of its own. -/
theorem issuedAs_conditional {test thenBranch elseBranch : Term} (htest : test.Complete)
    (hthen : IssuedAs ctx (stmt ctx thenBranch) (.one thenBranch))
    (helse : IssuedAs ctx (stmt ctx elseBranch) (.one elseBranch)) :
    IssuedAs ctx (stmt ctx (.node id (.conditional test thenBranch elseBranch)))
      (.one (.node id (.conditional test thenBranch elseBranch))) := by
  intro g
  refine (leads_condition htest g).bind fun r g₁ => ?_
  cases r with
  | none => exact .pure fun ⟨o, _, _, hr, _⟩ => absurd hr (by simp)
  | some o =>
    refine (Leads.inBlock (hthen _)).bind fun r₁ g₂ => ?_
    refine (Leads.inBlock (helse _)).bind fun r₂ g₃ => ?_
    refine Leads.build.mono fun _ g₄ ⟨hbranch, hs₄, hd₄⟩ ⟨gb, ⟨hb, hdb⟩, hbend, hs₃, hd₃⟩
      ⟨ga, ⟨ha, hda⟩, haend, hs₂, hd₂⟩ ⟨o', c, b, ho', hc, htruth, hs₁, hd₁⟩ => ?_
    obtain rfl := Option.some.inj ho'
    rw [hs₁, hd₁] at ha
    rw [hs₂, hd₂, hda, hd₁] at hb
    rw [hs₄, hs₃, hd₄, hd₃, hdb, hd₂, hda, hd₁]
    exact ⟨.conditional hc htruth ha haend hb hbend hbranch, rfl⟩

/-- A statement that may be absent. -/
def stmt? (ctx : Context) : Option Term → GenerateM Unit
  | none => pure ()
  | some t => stmt ctx t

/-- A loop, with its parts as they are generated. -/
theorem stmt_loop {kind : LoopKind} {step : Option Term} {body : Term} :
    stmt ctx (.node id (.loop kind start test step body)) =
      loop ctx kind (stmt? ctx start) (test.map fun t => (t.id, expr ctx t)) (stmt? ctx step) (stmt ctx body) := by
  cases start <;> cases step <;> rw [stmt] <;> rfl

/-- A statement that may be absent is issued by the rules. -/
theorem issuedAs_stmt? {t : Option Term} (h : ∀ s ∈ t, IssuedAs ctx (stmt ctx s) (.one s)) :
    IssuedAs ctx (stmt? ctx t) (.maybe t) := by
  intro g
  cases t with
  | none => exact .pure ⟨.absent, rfl⟩
  | some s => exact (h s rfl g).mono fun _ g' ⟨hs, h'⟩ => ⟨.present hs, h'⟩

/-- The condition of a loop. -/
theorem leads_test (htest : ∀ t ∈ test, t.Complete) (g : Generation) :
    Leads (OptionT.run (match test.map fun t => (t.id, expr ctx t) with
      | none => pure none
      | some (testId, generate) => do
        let c ← generate
        let c ← condition ctx c testId
        pure (some c))) g fun r g' => ∃ o, r = some o ∧
          Tests ctx g.scopes test o g.builder g'.builder ∧ At g.scopes g.loopDepth g' := by
  have hat : At g.scopes g.loopDepth g := ⟨rfl, rfl⟩
  cases test with
  | none => exact .pure ⟨none, rfl, .always, hat⟩
  | some t =>
    have hgives : Gives (do
        let c ← expr ctx t
        let c ← condition ctx c t.id
        pure (some c)) g fun o g' => Tests ctx g.scopes (some t) o g.builder g'.builder ∧
          At g.scopes g.loopDepth g' := by
      refine ((generatedAs t (htest t rfl)).1 g hat).bind fun c g₁ ⟨hc, h₁⟩ => ?_
      refine (gives_truth h₁).bind fun o g₂ ⟨ho, h₂⟩ => ?_
      exact .pure ⟨.condition hc ho, h₂⟩
    exact hgives.leads

/-- A loop, with a scope around it and each of its parts in a block of its own. -/
theorem issuedAs_loop {kind : LoopKind} {step : Option Term} {body : Term}
    (hstart : IssuedAs ctx (stmt? ctx start) (.maybe start)) (htest : ∀ t ∈ test, t.Complete)
    (hstep : IssuedAs ctx (stmt? ctx step) (.maybe step)) (hbody : IssuedAs ctx (stmt ctx body) (.one body)) :
    IssuedAs ctx (stmt ctx (.node id (.loop kind start test step body)))
      (.one (.node id (.loop kind start test step body))) := by
  intro g
  rw [stmt_loop]
  refine (Leads.modify rfl).bind fun _ g₁ => ?_
  refine (hstart g₁).bind fun _ g₂ => ?_
  refine (Leads.inBlock (leads_test htest _)).bind fun r g₃ => ?_
  rcases r with ⟨_ | o, testBody⟩
  · refine (Leads.modify rfl).mono fun _ _ _ ⟨_, ⟨o, ho, _⟩, _⟩ => ?_
    exact absurd ho (by simp)
  · have hloopBody : Leads (inLoop (stmt ctx body)) { g₃ with builder := (Builder.beginBlock g₃.builder).2 }
        fun _ g' => Issues ctx (g₃.loopDepth + 1) (.one body) g₃.scopes (Builder.beginBlock g₃.builder).2
          g'.scopes g'.builder ∧ g'.loopDepth = g₃.loopDepth := by
      refine (Leads.modify rfl).bind fun _ ga => ?_
      refine (hbody ga).bind fun _ gb => ?_
      refine (Leads.modify rfl).bind fun _ gc => ?_
      refine .pure fun hgc ⟨hissues, hdepth⟩ hga => ?_
      subst hgc hga
      dsimp only at hissues hdepth ⊢
      exact ⟨hissues, by omega⟩
    refine (Leads.inBlock hloopBody).bind fun r₁ g₄ => ?_
    refine (Leads.inBlock (hstep _)).bind fun r₂ g₅ => ?_
    refine Leads.build.bind fun _ g₆ => ?_
    refine (Leads.modify rfl).mono fun _ g₇ hg₇ ⟨hemit, hs₆, hd₆⟩ ⟨gc, ⟨hc, hdc⟩, hcend, hs₅, hd₅⟩
      ⟨gb, ⟨hb, hdb⟩, hbend, hs₄, hd₄⟩ ⟨ga, ⟨o', ho', ha, hsa, hda⟩, haend, hs₃, hd₃⟩ ⟨hs, hd₂⟩ hg₁ => ?_
    obtain rfl := Option.some.inj ho'
    subst hg₇ hg₁
    rw [hs₃, hd₃, hsa, hda, hd₂] at hb
    rw [hs₄, hd₄, hdb, hd₃, hda, hd₂] at hc
    rw [hs₆, hs₅, hd₆, hd₅, hdc, hd₄, hdb, hd₃, hda, hd₂]
    exact ⟨.loop hs ha haend hb hbend hc hcend hemit, rfl⟩

/-- A local is added to the innermost scope. -/
theorem declareLocal_eq (name : String) (o : Operand) (g : Generation) :
    declareLocal name o g = ((), { g with scopes := Scopes.declare g.scopes name o }) := by
  obtain ⟨builder, sink, scopes, loopDepth⟩ := g
  cases scopes <;> rfl

/-- A declared local changes nothing but the scopes. -/
theorem gives_declareLocal {name : String} {o : Operand} {g : Generation} :
    Gives (OptionT.lift (declareLocal name o)) g fun _ g' =>
      g'.scopes = Scopes.declare g.scopes name o ∧ g'.builder = g.builder ∧ g'.loopDepth = g.loopDepth := by
  unfold Gives
  have hrun : (OptionT.lift (declareLocal name o) : PartM Unit).run g =
      (some (), (declareLocal name o g).2) := rfl
  rw [hrun, declareLocal_eq]
  exact ⟨Nat.le_refl _, rfl, rfl, rfl⟩

/-- A declaration of a new local. -/
theorem gives_declare (ty : Ty) (name : Term) (hstart : ∀ s ∈ start, s.Complete) (g : Generation) :
    Gives (declare ctx id ty name (start.map fun s => (s.id, expr ctx s))) g fun _ g' =>
      Issues ctx g.loopDepth (.one (.node id (.declare ty name start))) g.scopes g.builder g'.scopes g'.builder ∧
        g'.loopDepth = g.loopDepth := by
  have hat : At g.scopes g.loopDepth g := ⟨rfl, rfl⟩
  unfold declare
  split
  · next nameId name =>
    refine Gives.get.bind fun a g' ⟨ha, hg⟩ => ?_
    subst ha hg
    dsimp only
    split
    · exact Nat.lt_of_lt_of_eq (Nat.lt_succ_self _) (Sink.errors_push_error rfl).symm
    · next hnew =>
      replace hnew : Scopes.find? g'.scopes name = none := Option.not_isSome_iff_eq_none.mp hnew
      split
      · exact Gives.fail.bind (P := fun _ _ => False) fun _ _ hfalse => hfalse.elim
      · next hty =>
        cases start with
        | none =>
          rw [pure_bind]
          refine (gives_build hat).bind fun o g₁ ⟨halloc, h₁⟩ => (gives_build h₁).bind fun u g₂ ⟨hbuild, h₂⟩ => ?_
          refine gives_declareLocal.mono fun _ g₃ ⟨hscopes, hbuilder, hdepth⟩ => ?_
          rw [hscopes, hbuilder, hdepth, h₂.1, h₂.2]
          exact ⟨.declareZero hnew hty halloc hbuild, rfl⟩
        | some start =>
          refine ((generatedAs start (hstart start rfl)).1 g' hat).bind fun v g₁ ⟨hv, h₁⟩ => ?_
          refine (gives_coerce h₁).bind fun w g₂ ⟨hw, h₂⟩ => ?_
          rw [pure_bind]
          refine (gives_build h₂).bind fun o g₃ ⟨halloc, h₃⟩ => (gives_build h₃).bind fun u g₄ ⟨hbuild, h₄⟩ => ?_
          refine gives_declareLocal.mono fun _ g₅ ⟨hscopes, hbuilder, hdepth⟩ => ?_
          rw [hscopes, hbuilder, hdepth, h₄.1, h₄.2]
          exact ⟨.declareValue hnew hty hv hw halloc hbuild, rfl⟩
  · exact .fail

/-- A complete term is issued by the rules as a statement. -/
theorem issuedAs (t : Term) (hcomplete : t.Complete) : IssuedAs ctx (stmt ctx t) (.one t) := by
  induction t using Term.children_induction with
  | missing id => exact absurd hcomplete Term.Complete.not_missing
  | node id content ih =>
    replace ih {c : Term} (hc : c ∈ content.children) := ih c hc (hcomplete.below hc)
    have hexpression (hstmt : stmt ctx (.node id content) = (do
        let _ ← (exprNode ctx id content).run
        return ())) : IssuedAs ctx (stmt ctx (.node id content)) (.one (.node id content)) := by
      intro g
      have hgives : Gives (expr ctx (.node id content)) g (Built g.scopes g.loopDepth g fun o =>
          Emits ctx g.scopes (.value (.node id content) o)) := (generatedAs _ hcomplete).1 g ⟨rfl, rfl⟩
      rw [hstmt]
      refine hgives.leads.bind fun r g₁ => .pure ?_
      rintro ⟨o, _, ho, hs, hd⟩
      rw [hs, hd]
      exact ⟨.expression ho, rfl⟩
    cases content with
    | block statements => exact issuedAs_block (issuedAs_stmts fun t ht => ih ht)
    | conditional test thenBranch elseBranch =>
      exact issuedAs_conditional (hcomplete.below (by simp))
        (ih (by simp)) (ih (by simp))
    | loop kind start test step body =>
      exact issuedAs_loop (issuedAs_stmt? fun s hs => ih (by simp_all))
        (fun t ht => hcomplete.below (by simp_all))
        (issuedAs_stmt? fun s hs => ih (by simp_all)) (ih (by simp))
    | jump word =>
      intro g
      rw [stmt]
      refine Leads.bind (P := fun a g' => a = g ∧ g' = g) ⟨Nat.le_refl _, fun _ => ⟨rfl, rfl⟩⟩ fun a g' => ?_
      split
      · exact .report
      · next hword =>
        refine Leads.build.mono ?_
        rintro u g'' ⟨hbuild, hs, hd⟩ ⟨ha, hg⟩
        subst ha hg
        rw [hs, hd]
        refine ⟨.jump ?_ hbuild, rfl⟩
        by_cases hreturn : word = .return
        · exact .inl hreturn
        · exact .inr (Nat.pos_of_ne_zero fun hzero => hword ⟨hreturn, hzero⟩)
    | declare ty name start =>
      intro g
      have hstart : ∀ s ∈ start, s.Complete := fun s hs => hcomplete.below (by simp_all)
      have hgives : Gives (declare ctx id ty name (start.map fun s => (s.id, expr ctx s))) g _ :=
        gives_declare ty name hstart g
      refine hgives.leads.bind fun r g₁ => .pure ?_
      rintro ⟨_, _, h⟩
      exact h
    | _ => exact hexpression (by rw [stmt] <;> simp)

end

end Elementwise.Generate

namespace Elementwise

/-- The state that the generation of a program starts from. -/
def Context.start (ctx : Context) (sink : Sink) : Generation :=
  { builder := { target := ctx.registry.target, slots := ctx.registry.size }, sink }

/-- The code of a complete program that is generated without a new error is issued by the rules. -/
theorem Code.issues_of_generate {ctx : Context} {program : Term} {sink : Sink} (hcomplete : program.Complete)
    (herrors : (Code.generate ctx program sink).2.errors = sink.errors) :
    ∃ scopes b, Generate.Issues ctx 0 (.one program) [] { target := ctx.registry.target, slots := ctx.registry.size }
      scopes b ∧ (Code.generate ctx program sink).1 = b.finish := by
  have h : Generate.IssuedAs ctx (Generate.stmt ctx program) (.one program) := Generate.issuedAs program hcomplete
  exact ⟨_, _, ((h (ctx.start sink)).2 herrors).1, rfl⟩

end Elementwise
