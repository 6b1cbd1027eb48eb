import Elementwise.Proofs.Perform.Names
import Elementwise.Proofs.Perform.Quiet

/-!
# Targets of assignments that change nothing else

The site of a target whose indices change nothing is the spot that the target evaluates to. A store into the
site changes the scene as a write to the spot does: a local has a cell of its own, and a component is
replaced in what its base still holds.
-/

namespace Elementwise

open Act (Shows)

/-- What a site holds. -/
def Store.held (σ : Store) : Site → Datum
  | .whole base => σ.read (σ.load base)
  | .component _ container index => (σ.read container).component (σ.read index)

/-- A site is a spot, where names are visible. A component is still to be replaced in what its base holds. -/
inductive Store.Spotted (σ : Store) (names : Names) : Site → Spot → Prop
  | named {name : String} {i : Nat} {ty : Ty} (h : names.find? name = some (i, ty)) :
      Spotted σ names (.whole (.cell i ty)) (.named name)
  | slot (slot : Nat) (ty : Ty) : Spotted σ names (.whole (.slot slot ty)) (.slot slot ty)
  | component {base : Base} {spot : Spot} (h : Spotted σ names (.whole base) spot) (index : Referent) :
      Spotted σ names (.component base (σ.load base) index) (.component spot (σ.read index))

theorem Store.ty_load (σ : Store) (base : Base) : (σ.load base).ty = base.ty := by cases base <;> rfl

/-- The type of a site is that of what it holds. -/
theorem Store.ty_held (σ : Store) (site : Site) : (σ.held site).ty = site.ty := by
  cases site with
  | whole base => exact (σ.ty_read _).trans (σ.ty_load base)
  | component base container index => exact congrArg Ty.elementTy (σ.ty_read container)

/-- A component has no components. -/
theorem Evaluate.position_component (d i : Datum) (row : Eval Datum) (column : Option (Eval Datum)) :
    Evaluate.position (d.component i) row column = Eval.stuck := by
  have hty : (∃ kind, (d.component i).ty = .scalar kind) ∨ (d.component i).ty = .void := by
    rw [Datum.component, Ty.elementTy]
    split
    · exact .inl ⟨_, rfl⟩
    · exact .inr rfl
  unfold Evaluate.position
  rcases hty with ⟨kind, hty⟩ | hty <;> rw [hty]

namespace Store.Spotted

variable {σ : Store} {names : Names} {site : Site} {spot : Spot}

/-- A site is where it was after native calls. -/
theorem calls (h : σ.Spotted names site spot) (calls : List NativeCall) : ({ σ with calls } : Store).Spotted names site spot := by
  induction h with
  | named h => exact .named h
  | slot slot ty => exact .slot slot ty
  | @component base spot h index ih => exact .component ih index

/-- A spot holds what its site holds. -/
theorem read? (h : σ.Spotted names site spot) : (σ.scene names).read? spot = some (σ.held site) := by
  induction h with
  | named h =>
    rw [Scene.read?, Store.scene, names.lookup_locals, h]
    rfl
  | slot => rfl
  | component h index ih =>
    rw [Scene.read?, ih]
    rfl

/-- What a site holds is loaded. -/
theorem shows_load (h : σ.Spotted names site spot) : Shows σ σ.Reads (Perform.load .lazy site) (pure (σ.held site)) := by
  cases h with
  | named | slot => exact fun calls => .value rfl
  | component h index => exact Perform.shows_component _ index

end Store.Spotted

namespace Perform

/-- What a base holds is loaded. -/
theorem shows_base {σ : Store} {base : Base} {α β : Type} {Q : α → β → Prop} {k : Referent → Act α} {y : Eval β}
    (hk : Shows σ Q (k (σ.load base)) y) : Shows σ Q ((Act.look fun s => s.load base) >>= k) y := by
  intro calls
  cases base <;> exact hk calls

/-- The site of a target is the spot that it evaluates to. -/
theorem shows_place (w : World) (t : Term) (hcalm : t.Everywhere Node.Calm) (names : Names) (σ : Store) :
    Shows σ (σ.Spotted names) (place .lazy w names t) (Evaluate.spot w (σ.scene names) t) := by
  induction t using Term.children_induction with
  | missing id => exact .stuck
  | node id content ih =>
    cases content with
    | localName name =>
      refine Shows.bind (Q := fun cell d => names.find? name = some cell ∧ d = σ.cell cell.1 cell.2) (.ofOption ?_) ?_
      · rw [Store.scene, names.lookup_locals]
        generalize names.find? name = found
        cases found with
        | none => exact .none
        | some cell => exact .some ⟨rfl, rfl⟩
      · rintro ⟨i, ty⟩ d ⟨hcell, -⟩
        exact .pure (.named hcell)
    | field name ty inferred writable =>
      rw [place, Evaluate.spot, entry]
      cases w.registry.get? name with
      | none => exact .stuck
      | some e => exact .pure (.slot e.index e.ty)
    | unpack array row column =>
      have hquiet (c : Term) (hc : c ∈ (Node.unpack array row column).children) : Quiet w c :=
        quiet_of_calm w c (hcalm.here c hc) (hcalm.below hc)
      have hrow := hquiet row (by simp) names σ
      have hcolumn := shows_column column (fun t ht => hquiet t (by simp [ht])) names σ
      rw [place_unpack, Evaluate.spot]
      refine (ih array (by simp) (hcalm.below (by simp))).bind ?_
      intro site spot hsite
      rw [hsite.read?]
      cases site with
      | component base container index =>
        change Shows σ _ Act.stuck (Evaluate.position ((σ.read container).component (σ.read index)) _ _ >>= _)
        rw [Evaluate.position_component]
        exact .stuck
      | whole base =>
        have hty : (σ.held (.whole base)).ty = (σ.load base).ty := σ.ty_read _
        have hposition := shows_position hrow hcolumn hty
        refine shows_base (hposition.bind ?_)
        rintro i _ rfl
        exact .pure (.component hsite i)
    | _ => exact .stuck

end Perform

/-- The locals after the cell of one of them is set. -/
theorem Names.Numbered.locals_setCell {names : Names} (h : names.Numbered) {name : String} {i : Nat} {ty : Ty}
    (hname : names.find? name = some (i, ty)) (σ : Store) (v : Value) :
    names.locals (σ.setCell i v) = Scene.setLocal name ⟨ty, v⟩ (names.locals σ) := by
  have hnodup := h.nodup
  rw [find?_eq] at hname
  unfold locals
  generalize names.scopes.flatten = entries at hnodup hname
  induction entries with
  | nil => cases hname
  | cons e entries ih =>
    obtain ⟨name', j, ty'⟩ := e
    rw [List.map_cons, List.nodup_cons] at hnodup
    rw [List.lookup_cons] at hname
    rw [List.map_cons, List.map_cons, Scene.setLocal]
    split at hname
    · next heq =>
      obtain ⟨rfl, rfl⟩ := Prod.mk.inj (Option.some.inj hname)
      rw [if_pos heq]
      have hcell : (σ.setCell j v).cell j ty' = ⟨ty', v⟩ := by simp [Store.cell, Store.setCell]
      -- no later local has the same cell
      refine congrArg₂ List.cons (Prod.ext rfl hcell) (List.map_congr_left fun e he => ?_)
      have hne : e.2.1 ≠ j := fun heq => hnodup.1 (List.mem_map.mpr ⟨e, he, heq⟩)
      simp [Store.cell, Store.setCell, hne]
    · next hne =>
      rw [hne, if_neg Bool.false_ne_true, ih hnodup.2 hname]
      have hmem : i ∈ entries.map fun e => e.2.1 := by
        obtain ⟨l₁, l₂, heq, -⟩ := List.lookup_eq_some_iff.mp hname
        simp [heq]
      have hne : j ≠ i := fun heq => hnodup.1 (heq ▸ hmem)
      simp [Store.cell, Store.setCell, hne]

namespace Store.Spotted

variable {σ : Store} {names : Names} {site : Site} {spot : Spot}

/-- A datum of the type of a base that is set there is written to the spot. -/
theorem scene_set {base : Base} (h : σ.Spotted names (.whole base) spot) (hnumbered : names.Numbered) {d : Datum}
    (hty : d.ty = base.ty) : (σ.set base d).scene names = (σ.scene names).write spot d := by
  cases h with
  | @named name i ty h =>
    obtain ⟨ty', v⟩ := d
    obtain rfl : ty' = ty := hty
    rw [Store.set, Store.scene, hnumbered.locals_setCell h]
    rfl
  | slot => rfl

/-- What is stored into a site is written to the spot. -/
theorem store (h : σ.Spotted names site spot) (hnumbered : names.Numbered) {value : Referent} (hty : (σ.read value).ty = site.ty) :
    ∃ σ', Perform.store .lazy site value σ = .value () σ' ∧ σ'.scene names = (σ.scene names).write spot (σ.read value) := by
  cases h with
  | @named name i ty h => exact ⟨_, rfl, (named h).scene_set hnumbered hty⟩
  | slot j ty =>
    have h : σ.Spotted names (.whole (.slot j ty)) (.slot j ty) := .slot j ty
    exact ⟨_, rfl, h.scene_set hnumbered hty⟩
  | component h index =>
    refine ⟨_, rfl, (h.scene_set hnumbered ?_).trans ?_⟩
    · exact (σ.ty_read _).trans (σ.ty_load _)
    · rw [Scene.write, h.read?]
      rfl

end Store.Spotted

end Elementwise
