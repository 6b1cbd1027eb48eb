import Elementwise.Proofs.Diagnostic.Limits
import Elementwise.Proofs.Evaluate.Builtin

/-!
# What generation reports and what it closes

A step of generation never asks for what was reported: from states that differ in their sinks alone, it has the
same result, makes the same code and reports the same diagnostics one after another. How many of them are
recorded, and which of them count as errors, is up to the sink. A step may open blocks, scopes and loops; it has the
same nesting at its end if it has closed them. A step that is put together from such steps is one of them.
-/

namespace Elementwise

/-- How a message about a field of a target opens. -/
def Target.fieldOpening (target : Target) : List Char := (target.fieldName ++ " '@").toList

/-- A diagnostic that is about neither the backend nor a field. -/
def Diagnostic.Plain (d : Diagnostic) : Prop :=
  d.kind ≠ .backend ∧ ∀ target : Target, ¬ target.fieldOpening <+: d.message.toList

/-- A message that opens in another way than those about fields. -/
theorem Diagnostic.plain_of_opening {d : Diagnostic} (opening : String) (hkind : d.kind ≠ .backend)
    (hopens : opening.toList <+: d.message.toList) (hapart : ∀ target ∈ [Target.points, .volumes],
      ¬ target.fieldOpening <+: opening.toList ∧ ¬ opening.toList <+: target.fieldOpening) : d.Plain := by
  refine ⟨hkind, fun target hfield => ?_⟩
  have htarget : target ∈ [Target.points, .volumes] := by cases target <;> simp
  -- two openings of one message: one of them is the longer one
  rcases List.prefix_or_prefix_of_prefix hfield hopens with h | h
  · exact (hapart target htarget).1 h
  · exact (hapart target htarget).2 h

namespace Generate

variable {α β : Type} {P : Diagnostic → Prop} {g : Generation}

/-- From a state, a step of generation reports only what is as stated, and neither that nor its result and its
changes depend on the sink. -/
def ReportsFrom (P : Diagnostic → Prop) (g : Generation) (x : GenerateM α) : Prop :=
  ∃ ds, (∀ d ∈ ds, P d) ∧ ∀ sink, x { g with sink } = ((x g).1, { (x g).2 with sink := sink.extend ds })

/-- So from every state. -/
def Reports (P : Diagnostic → Prop) (x : GenerateM α) : Prop := ∀ g, ReportsFrom P g x

/-- So a step whose result may be missing. -/
def PartReports (P : Diagnostic → Prop) (x : PartM α) : Prop := Reports P x.run

/-- What is reported is gathered by the sink. -/
theorem Reports.gathers {x : GenerateM α} (h : Reports P x) (g : Generation) :
    Sink.Gathers P g.sink (x g).2.sink := by
  obtain ⟨ds, hds, hx⟩ := h g
  exact ⟨ds, congrArg (·.2.sink) (hx g.sink), hds⟩

namespace ReportsFrom

theorem pure (a : α) : ReportsFrom P g (pure a : GenerateM α) := ⟨[], by simp, fun _ => rfl⟩

theorem bind {x : GenerateM α} {f : α → GenerateM β} (hx : ReportsFrom P g x) (hf : ReportsFrom P (x g).2 (f (x g).1)) :
    ReportsFrom P g (x >>= f) := by
  obtain ⟨ds, hP, hds⟩ := hx
  obtain ⟨ds', hP', hds'⟩ := hf
  refine ⟨ds ++ ds', fun d hd => (List.mem_append.mp hd).elim (hP d) (hP' d), fun sink => ?_⟩
  change f (x { g with sink }).1 (x { g with sink }).2 = _
  rw [hds sink, hds' (sink.extend ds), Sink.extend_extend]
  rfl

theorem get_bind {f : Generation → GenerateM α} (hf : ∀ sink, f { g with sink } = f g) (h : ReportsFrom P g (f g)) :
    ReportsFrom P g (get >>= f) := by
  obtain ⟨ds, hP, hds⟩ := h
  refine ⟨ds, hP, fun sink => ?_⟩
  change f { g with sink } { g with sink } = _
  rw [hf]
  exact hds sink

theorem modify {f : Generation → Generation} (hf : ∀ sink, f { g with sink } = { f g with sink }) :
    ReportsFrom P g (modify f) :=
  ⟨[], by simp, fun sink => congrArg (Prod.mk ()) (hf sink)⟩

theorem build (action : BuildM α) : ReportsFrom P g (build action) := ⟨[], by simp, fun _ => rfl⟩

theorem push {d : Diagnostic} (h : P d) : ReportsFrom P g (push d) := ⟨[d], by simpa using h, fun _ => rfl⟩

/-- A step in a block of its own. -/
theorem inBlock {x : GenerateM α} (hx : ReportsFrom P { g with builder := (Builder.beginBlock g.builder).2 } x) :
    ReportsFrom P g (inBlock x) :=
  (build Builder.beginBlock).bind (hx.bind ((build _).bind (pure _)))

/-- A step one loop deeper. -/
theorem inLoop {x : GenerateM α} (hx : ReportsFrom P { g with loopDepth := g.loopDepth + 1 } x) :
    ReportsFrom P g (inLoop x) :=
  (modify fun _ => rfl).bind (hx.bind ((modify fun _ => rfl).bind (pure _)))

end ReportsFrom

theorem PartReports.pure (a : α) : PartReports P (pure a) := fun _ => ReportsFrom.pure _

end Generate

/-- A later state of generation with the same nesting: the open block has only been added to, the blocks around it
are as they were, and as many scopes and loops are open. -/
structure Generation.SameNesting (g g' : Generation) : Prop where
  blocks : g.builder.Grows g'.builder
  scopes : g'.scopes.length = g.scopes.length
  loopDepth : g'.loopDepth = g.loopDepth

/-- The state with a new block open. -/
def Generation.opened (g : Generation) : Generation := { g with builder := (Builder.beginBlock g.builder).2 }

namespace Generation.SameNesting

variable {α : Type} {g g₁ g₂ : Generation} {x : GenerateM α}

theorem refl (g : Generation) : g.SameNesting g := ⟨.refl _, rfl, rfl⟩

theorem trans (h : g.SameNesting g₁) (h' : g₁.SameNesting g₂) : g.SameNesting g₂ :=
  ⟨h.blocks.trans h'.blocks, h'.scopes.trans h.scopes, h'.loopDepth.trans h.loopDepth⟩

/-- A block that was opened for a step gives back what the step has put into it. -/
theorem inBlock (h : g.opened.SameNesting (x g.opened).2) : g.SameNesting (Generate.inBlock x g).2 ∧
    (Generate.inBlock x g).1.2 = (x g.opened).2.builder.current.toList := by
  obtain ⟨hbody, hclosed, -⟩ := h.blocks.block rfl
  exact ⟨⟨⟨[], hclosed⟩, h.scopes, h.loopDepth⟩, hbody.current.symm⟩

end Generation.SameNesting

end Elementwise
