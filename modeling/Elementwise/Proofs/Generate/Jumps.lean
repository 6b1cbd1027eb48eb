import Elementwise.Proofs.Evaluate.Builtin
import Elementwise.Proofs.Generate.Sound

/-!
# Where generated jumps stand

A `break` or a `continue` of the generated code has the part of a loop nearest around it that its keyword has
in the program: expressions add no jumps, and statements add theirs where they stand. So only a keyword that
stands in the step of a loop ends up in one.
-/

namespace Elementwise

open Builder

/-- A `break` or a `continue` in a term has the step of a loop nearest around it, or no loop at all; `inBody`
tells whether the term itself has the body of a loop nearest around it. -/
inductive Term.Misplaces : Bool → Term → Prop
  | jump {id word} (hword : word ≠ .return) : Misplaces false (.node id (.jump word))
  | block {inBody id statements s} (hs : s ∈ statements) (h : Misplaces inBody s) :
      Misplaces inBody (.node id (.block statements))
  | thenBranch {inBody id test thenBranch elseBranch} (h : Misplaces inBody thenBranch) :
      Misplaces inBody (.node id (.conditional test thenBranch elseBranch))
  | elseBranch {inBody id test thenBranch elseBranch} (h : Misplaces inBody elseBranch) :
      Misplaces inBody (.node id (.conditional test thenBranch elseBranch))
  | start {inBody id kind start test step body} (h : Misplaces inBody start) :
      Misplaces inBody (.node id (.loop kind (some start) test step body))
  | step {inBody id kind start test step body} (h : Misplaces false step) :
      Misplaces inBody (.node id (.loop kind start test (some step) body))
  | body {inBody id kind start test step body} (h : Misplaces true body) :
      Misplaces inBody (.node id (.loop kind start test step body))

namespace Term

variable {inBody : Bool} {id : NodeId}

/-- Only a `return` may stand outside of the bodies of loops. -/
@[simp] theorem misplaces_jump {word : Jump} :
    (node id (.jump word)).Misplaces inBody ↔ inBody = false ∧ word ≠ .return := by
  constructor
  · intro h
    cases h with
    | jump hword => exact ⟨rfl, hword⟩
  · rintro ⟨rfl, hword⟩
    exact .jump hword

/-- A jump in a block is in one of its statements. -/
@[simp] theorem misplaces_block {statements : List Term} :
    (node id (.block statements)).Misplaces inBody ↔ ∃ s ∈ statements, s.Misplaces inBody := by
  constructor
  · intro h
    cases h with
    | block hs h => exact ⟨_, hs, h⟩
  · rintro ⟨s, hs, h⟩
    exact .block hs h

/-- A jump in a loop is in its start, its step or its body. -/
@[simp] theorem misplaces_loop {kind : LoopKind} {start test step : Option Term} {body : Term} :
    (node id (.loop kind start test step body)).Misplaces inBody ↔
      (∃ s ∈ start, s.Misplaces inBody) ∨ (∃ s ∈ step, s.Misplaces false) ∨ body.Misplaces true := by
  constructor
  · intro h
    cases h with
    | start h => exact .inl ⟨_, rfl, h⟩
    | step h => exact .inr (.inl ⟨_, rfl, h⟩)
    | body h => exact .inr (.inr h)
  · rintro (⟨s, rfl, h⟩ | ⟨s, rfl, h⟩ | h)
    · exact .start h
    · exact .step h
    · exact .body h

end Term

namespace Generate

variable {ctx : Context} {scopes : Scopes} {b b' : Builder} {l r v o : Operand} {inBody : Bool}

/-- An operator on two operands. -/
theorem Operated.places {op : BinaryOp} (h : Operated op l r o b b') : b.Places inBody b' := by
  obtain ⟨common, -, -, hbuild⟩ := h
  exact Placing.of_eq hbuild

theorem Truth.places (h : Truth v o b b') : b.Places inBody b' := Placing.of_eq h.2

theorem Coerced.places {ty : Ty} (h : Coerced v ty o b b') : b.Places inBody b' := Placing.of_eq h.2

/-- The arguments of a call, converted to the parameters. -/
theorem Resolved.places {name : String} {values args : List Operand} {f : Function}
    (h : Resolved ctx name values f args b b') : b.Places inBody b' := by
  obtain ⟨group, resolution, -, -, -, -, hbuild⟩ := h
  exact Placing.of_eq hbuild

/-- The inline function that a call takes. -/
theorem Resolved.placing {name : String} {values args : List Operand} {f : Function} {gen : Generator}
    (h : Resolved ctx name values f args b b') (hgen : f.implementation = .emitted gen) (hlibrary : ctx.library.Placing)
    (args : List Operand) : Placing (gen ctx.custom args).run := by
  obtain ⟨group, resolution, hget, -, hresolve, rfl, -⟩ := h
  exact hlibrary name group hget _ (Group.resolve_eq_ok hresolve).1 gen hgen ctx.custom args

/-- An expression has no jumps. -/
theorem Emits.places (hlibrary : ctx.library.Placing) {part : Part} (h : Emits ctx scopes part b b') :
    b.Places false b' := by
  induction h with
  | literal hbuild | field _ hbuild | external _ hbuild => exact Placing.of_eq hbuild
  | localName | placeLocal | placeField | nil => exact .refl _
  | @logical _ op _ _ _ _ _ _ _ _ _ _ _ _ _ _ _ _ _ _ _ _ _ hl hresult hassign _ hr hreassign hend hbranch ihleft
      ihright =>
    obtain ⟨hbody, hblock⟩ := ((ihright.trans hr.places).trans (Placing.of_eq hreassign)).block hend
    refine (((((ihleft.trans hl.places).trans (Placing.of_eq hresult)).trans (Placing.of_eq hassign)).trans
      (hblock false))).trans (.of_emit hbranch ?_)
    by_cases hop : op = .and <;> simp [Instr.jumpsPlaced, Instr.jumpsPlacedAll, hop, hbody]
  | binary _ _ _ hbuild ihleft ihright => exact (ihleft.trans ihright).trans hbuild.places
  | unary _ _ hbuild ih | pack _ _ hbuild ih | index _ _ _ hbuild ih => exact ih.trans (Placing.of_eq hbuild)
  | crement _ _ _ hbuild ih => exact ih.trans (Placing.of_eq hbuild)
  | assign _ _ hcoerce hstore ihtarget ihvalue =>
    exact ((ihtarget.trans ihvalue).trans hcoerce.places).trans (Placing.of_eq hstore)
  | compound _ _ hload hbuild hcoerce hstore ihtarget ihvalue =>
    exact ((((ihtarget.trans ihvalue).trans (Placing.of_eq hload)).trans hbuild.places).trans hcoerce.places).trans
      (Placing.of_eq hstore)
  | cast _ hcoerce ih => exact ih.trans hcoerce.places
  | native _ hresolve _ hbuild ih => exact (ih.trans hresolve.places).trans (Placing.of_eq hbuild)
  | inline _ hresolve hgenerator hbuild _ ih =>
    have := hresolve.placing hgenerator hlibrary
    exact (ih.trans hresolve.places).trans (Placing.of_eq hbuild)
  | inlineVoid _ hresolve hgenerator hbuild _ halloc ih =>
    have := hresolve.placing hgenerator hlibrary
    exact ((ih.trans hresolve.places).trans (Placing.of_eq hbuild)).trans (Placing.of_eq halloc)
  | unpack _ _ hbuild iharray ihindex => exact (iharray.trans ihindex).trans (Placing.of_eq hbuild)
  | cons _ _ ihhead ihtail => exact ihhead.trans ihtail
  | placeComponent _ hload _ ihbase ihindex => exact (ihbase.trans (Placing.of_eq hload)).trans ihindex
  | vectorPosition _ _ ih | matrixPosition _ _ ih => exact ih
  | entryPosition _ _ _ hbuild ihrow ihcolumn => exact (ihrow.trans ihcolumn).trans (Placing.of_eq hbuild)

/-- The condition of a loop has no jumps. -/
theorem Tests.places (hlibrary : ctx.library.Placing) {test : Option Term} {o : Option Operand}
    (h : Tests ctx scopes test o b b') : b.Places false b' := by
  cases h with
  | always => exact .refl _
  | condition hvalue htruth => exact (hvalue.places hlibrary).trans htruth.places

/-- Statements add their jumps where they stand. -/
theorem Issues.places (hlibrary : ctx.library.Placing) {depth : Nat} {phrase : Phrase} {scopes' : Scopes}
    (h : Issues ctx depth phrase scopes b scopes' b') (hplaced : ∀ t ∈ phrase.terms, ¬t.Misplaces inBody) :
    b.Places inBody b' := by
  induction h generalizing inBody with
  | absent | nil => exact .refl _
  | present _ ih => exact ih hplaced
  | cons _ _ ihhead ihtail =>
    obtain ⟨hhead, htail⟩ := List.forall_mem_cons.mp hplaced
    exact (ihhead (by simpa [Phrase.terms] using hhead)).trans (ihtail htail)
  | block _ ih => exact ih fun t ht hmisplaces => hplaced _ List.mem_cons_self (.block ht hmisplaces)
  | conditional htest htruth _ hthenEnd _ helseEnd hbranch ihthen ihelse =>
    have hplaced := hplaced _ List.mem_cons_self
    have hthen := ihthen (by simpa [Phrase.terms] using fun h => hplaced (.thenBranch h))
    have helse := ihelse (by simpa [Phrase.terms] using fun h => hplaced (.elseBranch h))
    obtain ⟨hthen, hafterThen⟩ := hthen.block hthenEnd
    obtain ⟨helse, hafterElse⟩ := helse.block helseEnd
    exact (((((htest.places hlibrary).trans htruth.places).anywhere).trans (hafterThen _)).trans (hafterElse _)).trans
      (.of_emit hbranch (Instr.jumpsPlaced_branch.mpr ⟨hthen, helse⟩))
  | loop _ htest htestEnd _ hbodyEnd _ hstepEnd hloop ihstart ihbody ihstep =>
    have hplaced := hplaced _ List.mem_cons_self
    have hstart := @ihstart inBody fun t ht hmisplaces => by
      obtain rfl := Option.mem_toList.mp ht
      exact hplaced (.start hmisplaces)
    obtain ⟨htest, hafterTest⟩ := (htest.places hlibrary).block htestEnd
    obtain ⟨hbody, hafterBody⟩ := (ihbody (by simpa [Phrase.terms] using fun h => hplaced (.body h))).block hbodyEnd
    obtain ⟨hstep, hafterStep⟩ := Places.block (ihstep fun t ht hmisplaces => by
      obtain rfl := Option.mem_toList.mp ht
      exact hplaced (.step hmisplaces)) hstepEnd
    exact (((hstart.trans (hafterTest _)).trans (hafterBody _)).trans (hafterStep _)).trans
      (.of_emit hloop (Instr.jumpsPlaced_loop.mpr ⟨htest, hbody, hstep⟩))
  | @jump _ _ word _ _ _ _ _ hbuild =>
    refine .of_emit hbuild ?_
    by_cases hword : word = .return
    · simp [Instr.jumpsPlaced, hword]
    · cases inBody with
      | false => exact absurd (.jump hword) (hplaced _ List.mem_cons_self)
      | true => simp [Instr.jumpsPlaced]
  | declareZero _ _ halloc hbuild => exact (Placing.of_eq halloc).trans (.of_emit hbuild rfl)
  | declareValue _ _ hstart hcoerce halloc hbuild =>
    have hvalue := (hstart.places hlibrary).trans hcoerce.places
    exact (hvalue.anywhere.trans (Placing.of_eq halloc)).trans (Placing.of_eq hbuild)
  | expression h => exact (h.places hlibrary).anywhere

end Generate

end Elementwise
