import Elementwise.Proofs.Generate.InStep
import Elementwise.Proofs.Tree.Expansion

/-!
# An expansion is accepted where the compound assignment is

A term that can be assigned to can also be read, and has the type of its place. So the generation of a term
and of what it expands to stays in step: where the expansion generates its target a second time, as a value,
it has a result of the type that the compound assignment loads from the place.
-/

namespace Elementwise.Generate

variable {α β γ δ ε : Type} {ctx : Context} {id id' : NodeId}

/-- Where the first step has a result, the second one has a related result, and generations stay in step. -/
def Covers (R : α → β → Prop) (x : PartM α) (y : PartM β) : Prop :=
  ∀ errors errors' g g', Generation.InStep errors errors' g g' → ∀ a g₁, x.run g = (some a, g₁) →
    ∃ b g₁', y.run g' = (some b, g₁') ∧ R a b ∧ g₁.InStep errors errors' g₁'

namespace Covers

variable {R : α → β → Prop} {S : γ → δ → Prop}

theorem fail {kind : ErrorKind} {message : String} {y : PartM β} : Covers R (fail ctx kind id message) y := by
  intro errors errors' g g' hg a g₁ hrun
  cases (Prod.mk.inj hrun).1

/-- A step that matches. -/
theorem of_matches {x : PartM α} {y : PartM β} (h : PartMatches R x y) : Covers R x y := by
  intro errors errors' g g' hg a g₁ hrun
  obtain ⟨hresult, hnext⟩ := h errors errors' g g' hg
  rw [hrun] at hresult hnext
  rcases hrun' : y.run g' with ⟨r, g₁'⟩
  rw [hrun'] at hresult hnext
  cases hresult with
  | some hab => exact ⟨_, g₁', rfl, hab, hnext⟩

theorem bind {x : PartM α} {y : PartM β} {k : α → PartM γ} {l : β → PartM δ} (hx : Covers R x y)
    (hk : ∀ a b, R a b → Covers S (k a) (l b)) : Covers S (x >>= k) (y >>= l) := by
  intro errors errors' g g' hg c g₂ hrun
  obtain ⟨a, g₁, hrun₁, hrun₂⟩ := Builder.run_bind_eq_some hrun
  obtain ⟨b, g₁', hrun₁', hab, hg₁⟩ := hx errors errors' g g' hg a g₁ hrun₁
  obtain ⟨d, g₂', hrun₂', hcd, hg₂⟩ := hk a b hab errors errors' g₁ g₁' hg₁ c g₂ hrun₂
  exact ⟨d, g₂', (Builder.run_bind_of_some hrun₁').trans hrun₂', hcd, hg₂⟩

/-- A step of building before the first step. -/
theorem emit {P : γ → Prop} {action : BuildM γ} {k : γ → PartM α} {y : PartM β} (h : BuildM.Gives action P)
    (hk : ∀ c, P c → Covers R (k c) y) : Covers R (emit action >>= k) y := by
  intro errors errors' g g' hg a g₁ hrun
  exact hk _ (h g.builder) errors errors' { g with builder := (action g.builder).2 } g'
    ⟨hg.scopes, hg.depth, hg.promote, hg.errors⟩ a g₁ hrun

end Covers

/-- A step with a result leaves the scopes, the number of loops and the promotion of warnings as they are. -/
def Stays (x : PartM α) : Prop :=
  ∀ g a g₁, x.run g = (some a, g₁) →
    g₁.scopes = g.scopes ∧ g₁.loopDepth = g.loopDepth ∧ g₁.sink.promote = g.sink.promote

/-- A place is generated inside the same scopes. -/
theorem stays_place {t : Term} (h : t.Complete) : Stays (place ctx t) := by
  intro g p g₁ hrun
  have hgives : Gives (place ctx t) g (Built g.scopes g.loopDepth g fun p => Emits ctx g.scopes (.place t p)) :=
    (generatedAs t h).2 g ⟨rfl, rfl⟩
  have hgathers : Sink.Gathers (·.kind ≠ .backend) g.sink ((place ctx t).run g).2.sink :=
    Reports.gathers (partReports_place t) g
  unfold Gives at hgives
  rw [hrun] at hgives hgathers
  exact ⟨hgives.2.2.1, hgives.2.2.2, hgathers.promote⟩

/-- A step of building on one side only. -/
theorem PartMatches.emit_left {R : α → β → Prop} {P : γ → Prop} {action : BuildM γ} {k : γ → PartM α} {y : PartM β}
    (h : BuildM.Gives action P) (hk : ∀ c, P c → PartMatches R (k c) y) : PartMatches R (Generate.emit action >>= k) y :=
  fun errors errors' g g' hg => hk _ (h g.builder) errors errors' { g with builder := (action g.builder).2 } g'
    ⟨hg.scopes, hg.depth, hg.promote, hg.errors⟩

/-- On one side, a step is followed by another one that it covers. -/
theorem PartMatches.reread {R : α → β → Prop} {S : α → γ → Prop} {T : δ → ε → Prop} {x : PartM α} {x' : PartM β}
    {y : PartM γ} {k : α → PartM δ} {l : β → γ → PartM ε} (hx : PartMatches R x x') (hstays : Stays x)
    (hy : Covers S x y) (hk : ∀ a b c, R a b → S a c → PartMatches T (k a) (l b c)) :
    PartMatches T (x >>= k) (x' >>= fun b => y >>= l b) := by
  intro errors errors' g g' hg
  obtain ⟨hresult, hg₁⟩ := hx errors errors' g g' hg
  rcases hrun : x.run g with ⟨r, g₁⟩
  rcases hrun' : x'.run g' with ⟨r', g₁'⟩
  rw [hrun, hrun'] at hresult hg₁
  cases hresult with
  | none =>
    rw [Builder.run_bind_of_none hrun, Builder.run_bind_of_none hrun']
    exact ⟨.none, hg₁⟩
  | @some a b hab =>
    obtain ⟨hscopes, hdepth, hpromote⟩ := hstays g a g₁ hrun
    -- errors are counted anew, from where the second step begins
    have hagain : g.InStep g.sink.errors g₁'.sink.errors g₁' :=
      ⟨hg₁.scopes.trans (by rw [hscopes]), hg₁.depth.trans hdepth, hg₁.promote.trans hpromote, .inl ⟨rfl, rfl⟩⟩
    obtain ⟨c, g₂', hrun₂, hac, hg₂⟩ := hy _ _ g g₁' hagain a g₁ hrun
    have hnext : g₁.InStep errors errors' g₂' := by
      refine ⟨hg₂.scopes, hg₂.depth, hg₂.promote, ?_⟩
      have herrors := hg.errors
      have herrors₁ := hg₁.errors
      have herrors₂ := hg₂.errors
      dsimp only at herrors₁ herrors₂
      omega
    rw [Builder.run_bind_of_some hrun, Builder.run_bind_of_some hrun', Builder.run_bind_of_some hrun₂]
    exact hk a b c hab hac errors errors' g₁ g₂' hnext

/-- A field that can be written can be read. -/
theorem covers_fieldSlot (name : String) (ty : Ty) :
    Covers (fun _ _ => True) (fieldSlot ctx id name ty true) (fieldSlot ctx id' name ty false) := by
  unfold fieldSlot
  cases ctx.registry.get? name with
  | none => exact .fail
  | some entry =>
    dsimp only
    split
    · exact .fail
    · split
      · exact .fail
      · exact .of_matches (.pure trivial)

/-- A field as a place, and the field as a value. -/
theorem covers_field (name : String) (ty : Ty) (inferred inferred' writable writable' : Bool) :
    Covers (fun p o => o.ty = p.ty) (place ctx (.node id (.field name ty inferred writable)))
      (expr ctx (.node id' (.field name ty inferred' writable'))) := by
  refine (covers_fieldSlot name ty).bind fun slot slot' _ => ?_
  intro errors errors' g g' hg a g₁ hrun
  obtain ⟨ha, rfl⟩ := Prod.mk.inj hrun
  obtain rfl := Option.some.inj ha
  exact ⟨_, _, rfl, rfl, ⟨hg.scopes, hg.depth, hg.promote, hg.errors⟩⟩

/-- A node as a place, and the node as a value: its children match, and those that are places can be read. -/
theorem covers_node {n n' : Node Term} (h : n.Rel (fun t t' => TermMatches ctx t t' ∧
      Covers (fun p o => o.ty = p.ty) (place ctx t) (expr ctx t')) n') :
    Covers (fun p o => o.ty = p.ty) (place ctx (.node id n)) (expr ctx (.node id' n')) := by
  cases h with
  | @localName name =>
    rw [place, expr, exprNode, ← bind_pure (localOperand ctx id' name)]
    exact .of_matches ((partMatches_localOperand name).bind fun o o' ho => .pure ho)
  | @field name ty inferred writable => exact covers_field name ty inferred inferred writable writable
  | @unpack _ _ column _ _ column' harray hrow hcolumn =>
    have hcolumn' : Option.Rel (TermMatches ctx) column column' := by
      cases hcolumn with
      | none => exact .none
      | some h => exact .some h.1
    rw [place_unpack, expr, exprNode_unpack]
    refine harray.2.bind fun base container' hbase => ?_
    refine .emit (gives_load base) fun container hcontainer => ?_
    have hsame : SameTy container container' := hbase.trans hcontainer.symm
    refine .of_matches ((partMatches_position hsame hrow.1 hcolumn').bind fun i i' _ => ?_)
    intro errors errors' g g' hg
    exact ⟨.some (congrArg Ty.elementTy hsame), hg.scopes, hg.depth, hg.promote, hg.errors⟩
  | _ => exact .fail

/-- A compound assignment and its expansion. -/
theorem partMatches_compound {op : BinaryOp} (hop : op.opClass ≠ .logical) {binaryId : NodeId}
    {target target₁ target₂ value value' : Term} (hcomplete : target.Complete) (h₁ : TermMatches ctx target target₁)
    (h₂ : Covers (fun p o => o.ty = p.ty) (place ctx target) (expr ctx target₂)) (h : TermMatches ctx value value') :
    PartMatches SameTy (exprNode ctx id (.assign target value (some op)))
      (exprNode ctx id' (.assign target₁ (.node binaryId (.binary op target₂ value')) none)) := by
  rw [exprNode, exprNode, expr, exprNode, if_neg hop]
  simp only [bind_assoc]
  refine h₁.place.reread (stays_place hcomplete) h₂ fun p p' l hp hl => ?_
  refine h.expr.bind fun v v' hv => ?_
  refine .emit_left (gives_load p) fun current hcurrent => ?_
  have hsame : SameTy current l := hl.trans hcurrent.symm
  exact (partMatches_binaryValues op hsame hv).bind fun o o' ho => partMatches_stored hp ho

end Elementwise.Generate

namespace Elementwise

open Generate

/-- A term and what it expands to are generated in step; where the term is a place, the expansion has its type
as a value. -/
theorem Term.Expands.generated {ctx : Context} (hstd : ctx.library = .standard) {t t' : Term} (h : t.Expands t') :
    TermMatches ctx t t' ∧ Covers (fun p o => o.ty = p.ty) (place ctx t) (expr ctx t') := by
  induction h with
  | @field id id' name ty inferred inferred' writable writable' =>
    have hexpr : PartMatches SameTy (exprNode ctx id (.field name ty inferred writable))
        (exprNode ctx id' (.field name ty inferred' writable')) := by
      exact (partMatches_fieldSlot name ty false).bind fun _ _ _ => .emitTy ty (fun _ => rfl) fun _ => rfl
    refine ⟨⟨rfl, rfl, hexpr, ?_, ?_⟩, covers_field name ty inferred inferred' writable writable'⟩
    · rw [place, place]
      exact (partMatches_fieldSlot name ty true).bind fun _ _ _ => .pure rfl
    · exact Matches.bind hexpr fun _ _ _ => .pure trivial
  | node hshape _ ih =>
    exact ⟨.node hstd hshape fun c c' hc => (ih c c' hc).1, covers_node (Node.rel_of_shape_eq hshape ih)⟩
  | @compound id id' binaryId op target target₁ target₂ value value' hop _ _ h₁ _ _ ih₁ ih₂ ih =>
    have hexpr : PartMatches SameTy (exprNode ctx id (.assign target value (some op)))
        (exprNode ctx id' (.assign target₁ (.node binaryId (.binary op target₂ value')) none)) :=
      partMatches_compound hop h₁.complete.1 ih₁.1 ih₂.2 ih.1
    exact ⟨⟨rfl, rfl, hexpr, .fail, Matches.bind hexpr fun _ _ _ => .pure trivial⟩, .fail⟩

/-- A program is generated without a new error exactly if what it expands to is. -/
theorem Term.Expands.accepted_iff {ctx : Context} (hstd : ctx.library = .standard) {t t' : Term} (h : t.Expands t')
    (sink : Sink) :
    (Code.generate ctx t sink).2.errors = sink.errors ↔ (Code.generate ctx t' sink).2.errors = sink.errors := by
  let g := ctx.start sink
  have hstart : g.InStep sink.errors sink.errors g := ⟨rfl, rfl, rfl, .inl ⟨rfl, rfl⟩⟩
  have herrors := ((h.generated hstd).1.stmt _ _ g g hstart).2.errors
  change (Generate.stmt ctx t g).2.sink.errors = _ ↔ (Generate.stmt ctx t' g).2.sink.errors = _
  omega

end Elementwise
