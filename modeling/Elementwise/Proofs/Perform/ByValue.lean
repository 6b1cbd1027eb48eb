import Elementwise.Proofs.Perform.Frame

/-!
# Operands read by value

An operand that is a bare local is read only after its siblings were evaluated. That is what it held when it
was evaluated itself, if no later sibling assigns the local; then operands are used by value, from left
to right.
-/

namespace Elementwise

/-- The local that an expression may stand for: itself, also if it is cast or was just assigned. -/
def Term.bare? : Term → Option String
  | .node _ (.localName name) => some name
  | .node _ (.cast _ operand) => operand.bare?
  | .node _ (.assign _ assigned none) => assigned.bare?
  | _ => none

/-- The local that an operand may stand for is not assigned in a later sibling. -/
def Term.Before (t later : Term) : Prop := ∀ name, t.bare? = some name → later.Spares (.named name)

/-- No operand of the node is a local that an operand evaluated after it assigns. The left operand of a logical
operator is used before the right one, and the row of a matrix entry before the value that is assigned. -/
def Node.Separate : Node Term → Prop
  | .binary op left right => op.opClass ≠ .logical → left.Before right
  | .call _ operands | .pack operands => operands.Pairwise Term.Before
  | .unpack array row column => array.Before row ∧ ∀ t, column = some t → array.Before t ∧ row.Before t
  | .assign target assigned _ => ∀ id array row, target = .node id (.unpack array row none) → row.Before assigned
  | _ => True

namespace Perform

open Act (Keeps)

variable {h : Referent} {i : Nat} {ty : Ty} {σ' : Store}

/-- A referent that a conversion gives as it is. -/
theorem convert_eq_cell {goal : Ty} {σ : Store} (heq : convert h goal σ = .value (.cell i ty) σ') : h = .cell i ty := by
  unfold convert at heq
  split at heq
  · exact (Result.value.inj heq).1
  · cases (Result.value.inj heq).1

/-- A cell that is converted implicitly to its own type. -/
theorem coerce_eq_cell {goal : Ty} {σ : Store} (heq : coerce h goal σ = .value (.cell i ty) σ') : h = .cell i ty := by
  unfold coerce at heq
  split at heq
  · exact convert_eq_cell heq
  · cases heq

/-- A cell that is used as an index. -/
theorem asIndex_eq_cell {σ : Store} (heq : asIndex h σ = .value (.cell i ty) σ') : h = .cell i ty := by
  unfold asIndex at heq
  split at heq
  · exact convert_eq_cell heq
  · cases heq

/-- An action that never gives a cell. -/
class Plain (x : Act Referent) : Prop where
  ne_cell : ∀ σ i ty σ', x σ ≠ .value (.cell i ty) σ'

namespace Plain

instance (d : Datum) : Plain (pure (.datum d)) := ⟨fun _ _ _ _ heq => nomatch (Result.value.inj heq).1⟩
instance (f : Store → Datum) : Plain (Act.look fun s => .datum (f s)) := ⟨fun _ _ _ _ heq => nomatch (Result.value.inj heq).1⟩
instance : Plain Act.stuck := ⟨fun _ _ _ _ heq => nomatch heq⟩
instance {α : Type} (x : Act α) (k : α → Act Referent) [hk : ∀ a, Plain (k a)] : Plain (x >>= k) := by
  refine ⟨fun σ i ty σ' heq => ?_⟩
  obtain ⟨a, σ₁, -, heq⟩ := Act.bind_eq_value heq
  exact (hk a).ne_cell σ₁ i ty σ' heq
instance (p : Prop) [Decidable p] (x y : Act Referent) [Plain x] [Plain y] : Plain (if p then x else y) := by
  split <;> infer_instance
instance (op : BinaryOp) (l r : Referent) : Plain (operate op l r) := by unfold operate; infer_instance
instance (c i : Referent) : Plain (component c i) := by unfold component; infer_instance
instance (wait : Referent → Act Referent) (ty : Ty) (row column : Act Referent) : Plain (position wait ty row (some column)) := by
  cases ty <;> (unfold position; infer_instance)
instance (name : String) (hs : List Referent) : Plain (call name hs) := by unfold call; infer_instance
instance (δ : Discipline) (op : CrementOp) (post : Bool) (site : Site) : Plain (step δ op post site) := by
  unfold step; infer_instance

end Plain

variable {w : World} {names : Names} {δ : Discipline}

/-- Only an expression that is a local gives its cell. -/
theorem bare_of_cell {t : Term} {σ : Store} (h : referent δ w names t σ = .value (.cell i ty) σ') :
    ∃ name, t.bare? = some name ∧ names.find? name = some (i, ty) := by
  induction t using Term.children_induction generalizing σ σ' with
  | missing id => cases h
  | node id content ih =>
    have hplain (hp : Plain (referent δ w names (.node id content))) :
        ∃ name, (Term.node id content).bare? = some name ∧ names.find? name = some (i, ty) := absurd h (hp.ne_cell σ i ty σ')
    cases content with
    | localName name =>
      rw [referent, referentNode, local?] at h
      cases hcell : names.find? name with
      | none =>
        rw [hcell] at h
        cases h
      | some cell =>
        rw [hcell] at h
        obtain ⟨rfl, rfl⟩ := Referent.cell.inj (Result.value.inj h).1
        exact ⟨name, rfl, hcell⟩
    | cast goal operand =>
      obtain ⟨a, σ₁, ha, h⟩ := Act.bind_eq_value h
      obtain rfl := coerce_eq_cell h
      obtain ⟨name, hbare, hcell⟩ := ih operand (by simp) ha
      exact ⟨name, hbare, hcell⟩
    | assign target value compound =>
      obtain ⟨site, σ₁, -, h⟩ := Act.bind_eq_value h
      obtain ⟨a, σ₂, ha, h⟩ := Act.bind_eq_value h
      rw [assign_eq] at h
      obtain ⟨b, σ₃, hb, h⟩ := Act.bind_eq_value h
      obtain ⟨-, σ₄, -, h⟩ := Act.bind_eq_value h
      obtain ⟨rfl, -⟩ := Result.value.inj h
      cases compound with
      | none =>
        obtain rfl := coerce_eq_cell hb
        obtain ⟨name, hbare, hcell⟩ := ih value (by simp) ha
        exact ⟨name, hbare, hcell⟩
      | some op =>
        obtain ⟨current, σ₅, -, hb⟩ := Act.bind_eq_value hb
        obtain ⟨c, σ₆, hc, hb⟩ := Act.bind_eq_value hb
        obtain rfl := coerce_eq_cell hb
        exact absurd hc (Plain.ne_cell _ _ _ _)
    | unpack array row column =>
      refine hplain ?_
      rw [referent_unpack]
      infer_instance
    | call name args =>
      refine hplain ?_
      rw [referent, referentNode]
      split <;> infer_instance
    | _ =>
      refine hplain ?_
      rw [referent, referentNode]
      infer_instance

/-- What is evaluated after an operand keeps the cell that the operand stands for. -/
theorem keeps_of_before (hnames : names.Numbered) (hregistry : w.registry.Numbered) {t later : Term}
    (hbefore : t.Before later) {σ : Store} (h : referent δ w names t σ = .value (.cell i ty) σ') (δ' : Discipline) :
    Keeps (.cell i ty) (referent δ' w names later) := by
  obtain ⟨name, hbare, hcell⟩ := bare_of_cell h
  have hbase : (Root.named name).base? w names = some (.cell i ty) := by rw [Root.base?, hcell]; rfl
  exact (keeps_of_spares hnames hregistry hbase δ' later (hbefore name hbare)).1

/-- It does not matter whether an operand is read before or after what keeps its cell. -/
theorem pass_late (inPlace : Bool) {α β : Type} {x : Act Referent} {y : Referent → Act α} {k : Referent → α → Act β}
    (hkeeps : ∀ σ i ty σ', x σ = .value (.cell i ty) σ' → Keeps (.cell i ty) (y (.cell i ty)))
    (hy : ∀ h (σ : Store), y (.datum (σ.read h)) = y h) (hk : ∀ h a σ, k (.datum (σ.read h)) a σ = k h a σ) :
    (x >>= fun h => pass ⟨true, inPlace⟩ h >>= fun h => y h >>= k h) = x >>= fun h => y h >>= k h := by
  funext σ
  refine Act.bind_congr fun h σ₁ hx => ?_
  change (y (.datum (σ₁.read h)) >>= k (.datum (σ₁.read h))) σ₁ = (y h >>= k h) σ₁
  rw [hy]
  refine Act.bind_congr fun a σ₂ ha => ?_
  have hread : σ₂.read h = σ₁.read h := by
    cases h with
    | datum d => rfl
    | cell i ty => exact Store.read_cell_congr ((hkeeps _ _ _ _ hx).content _ _ _ ha)
  rw [← hread, hk]

/-- Referents that are read, as data. -/
def settled (hs : List Referent) : Act (List Referent) := do
  let ds ← settleAll hs
  return ds.map .datum

/-- A site whose index is read. -/
def fixed : Site → Act Site
  | .whole base => return .whole base
  | .component base loaded index => do
    let i ← settle index
    return .component base loaded (.datum i)

/-- Referents that were read are read again. -/
theorem settled_settleAll {β : Type} (hs : List Referent) (k : List Datum → Act β) :
    (settled hs >>= fun hs => settleAll hs >>= k) = settleAll hs >>= k := by
  funext σ
  change k (((hs.map σ.read).map Referent.datum).map σ.read) σ = k (hs.map σ.read) σ
  rw [List.map_map, show σ.read ∘ Referent.datum = id from rfl, List.map_id]

section

variable {base : Base} {loaded index : Referent} {σ : Store} {d : Datum}

/-- What a component holds does not depend on when its index was read. -/
theorem load_fixed (δ : Discipline) (h : σ.read index = d) :
    load δ (.component base loaded (.datum d)) σ = load δ (.component base loaded index) σ := by
  subst h
  obtain ⟨_, _ | _⟩ := δ <;> rfl

/-- What is stored into a component does not depend on when its index was read. -/
theorem store_fixed (δ : Discipline) (h : σ.read index = d) (a : Referent) :
    store δ (.component base loaded (.datum d)) a σ = store δ (.component base loaded index) a σ := by
  subst h
  obtain ⟨_, _ | _⟩ := δ <;> rfl

/-- An assignment to a component does not depend on when its index was read. -/
theorem assign_fixed (δ : Discipline) (compound : Option BinaryOp) (h : σ.read index = d) (a : Referent) :
    assign δ compound (.component base loaded (.datum d)) a σ = assign δ compound (.component base loaded index) a σ := by
  have hrevised : revised δ compound (.component base loaded (.datum d)) a σ =
      revised δ compound (.component base loaded index) a σ := by
    cases compound with
    | none => rfl
    | some op =>
      rw [revised, revised, Act.bind_apply, load_fixed δ h, ← Act.bind_apply]
      rfl
  rw [assign_eq, assign_eq, Act.bind_apply, hrevised, ← Act.bind_apply]
  refine Act.bind_congr fun b σ₁ hb => ?_
  rw [Act.Still.still _ _ _ hb, Act.bind_apply, store_fixed δ h, ← Act.bind_apply]

/-- A step of a component does not depend on when its index was read. -/
theorem step_fixed (δ : Discipline) (op : CrementOp) (post : Bool) (h : σ.read index = d) :
    step δ op post (.component base loaded (.datum d)) σ = step δ op post (.component base loaded index) σ := by
  rw [step, step, Act.bind_apply, load_fixed δ h, ← Act.bind_apply]
  refine Act.bind_congr fun current σ₁ hcurrent => Act.bind_congr fun d' σ₂ hd => ?_
  obtain rfl := Act.Still.still _ _ _ hcurrent
  obtain rfl := Act.Still.still _ _ _ hd
  rw [Act.bind_apply, store_fixed δ h, ← Act.bind_apply]

/-- The index of a component is a cell only if it is the single index of its target, and a local. -/
theorem bare_of_place {inPlace : Bool} {t : Term} {σ' : Store} {i : Nat} {ty : Ty}
    (h : place ⟨false, inPlace⟩ w names t σ = .value (.component base loaded (.cell i ty)) σ') :
    ∃ id array row name, t = .node id (.unpack array row none) ∧ row.bare? = some name ∧ names.find? name = some (i, ty) := by
  rcases t with id | ⟨id, content⟩
  · cases h
  cases content with
  | unpack array row column =>
    rw [place_unpack] at h
    obtain ⟨site, σ₁, -, h⟩ := Act.bind_eq_value h
    cases site with
    | component => cases h
    | whole base =>
      obtain ⟨c, σ₂, -, h⟩ := Act.bind_eq_value h
      obtain ⟨j, σ₃, hposition, h⟩ := Act.bind_eq_value h
      obtain ⟨-, -, rfl⟩ := Site.component.inj (Result.value.inj h).1
      cases column with
      | none =>
        generalize c.ty = ty' at hposition
        cases ty' with
        | vector | matrix =>
          obtain ⟨a, σ₄, ha, hindex⟩ := Act.bind_eq_value hposition
          obtain rfl := asIndex_eq_cell hindex
          obtain ⟨name, hbare, hcell⟩ := bare_of_cell ha
          exact ⟨id, array, row, name, rfl, hbare, hcell⟩
        | _ => cases hposition
      | some t =>
        rw [Option.map_some] at hposition
        exact absurd hposition (Plain.ne_cell _ _ _ _)
  | localName name | field name =>
    obtain ⟨found, σ₁, -, h⟩ := Act.bind_eq_value h
    cases (Result.value.inj h).1
  | _ => cases h

end

section

variable (hnames : names.Numbered) (hregistry : w.registry.Numbered) (inPlace : Bool)

include hnames hregistry

/-- Expressions that are read by value, and those that are read at the end. -/
theorem referents_byValue {ts : List Term} (h : ∀ t ∈ ts, referent ⟨false, inPlace⟩ w names t = referent ⟨true, inPlace⟩ w names t)
    (hbefore : ts.Pairwise Term.Before) :
    referents ⟨true, inPlace⟩ w names ts = referents ⟨false, inPlace⟩ w names ts >>= settled := by
  induction ts with
  | nil => rfl
  | cons t ts ih =>
    rw [List.forall_mem_cons] at h
    rw [List.pairwise_cons] at hbefore
    have hkeeps (σ : Store) (i : Nat) (ty : Ty) (σ' : Store) (hx : referent ⟨true, inPlace⟩ w names t σ = .value (.cell i ty) σ') :
        Keeps (.cell i ty) (referents ⟨false, inPlace⟩ w names ts) :=
      keeps_referents fun t' ht' => keeps_of_before hnames hregistry (hbefore.1 t' ht') hx ⟨false, inPlace⟩
    have hlate := pass_late inPlace (x := referent ⟨true, inPlace⟩ w names t) (y := fun _ => referents ⟨false, inPlace⟩ w names ts)
      (k := fun h hs => settled (h :: hs)) hkeeps (fun _ _ => rfl) (fun _ _ _ => rfl)
    have hfalse : pass ⟨false, inPlace⟩ = pure := rfl
    rw [referents, referents, h.1, ih h.2 hbefore.2, hfalse]
    simp only [bind_assoc, pure_bind]
    rw [← hlate]
    rfl

/-- The position of a component is the same by value if the row is not assigned in the column. -/
theorem position_byValue (ty : Ty) {row : Term} {column : Option Term} (h : ∀ t, column = some t → row.Before t) :
    position (pass ⟨true, inPlace⟩) ty (referent ⟨true, inPlace⟩ w names row) (column.map (referent ⟨true, inPlace⟩ w names)) =
      position (pass ⟨false, inPlace⟩) ty (referent ⟨true, inPlace⟩ w names row)
        (column.map (referent ⟨true, inPlace⟩ w names)) := by
  cases column with
  | none => cases ty <;> rfl
  | some t =>
    cases ty with
    | matrix kind n =>
      have hkeeps (σ : Store) (i : Nat) (ty : Ty) (σ' : Store)
          (hx : (referent ⟨true, inPlace⟩ w names row >>= asIndex) σ = .value (.cell i ty) σ') :
          Keeps (.cell i ty) (referent ⟨true, inPlace⟩ w names t >>= asIndex) := by
        obtain ⟨a, σ₁, ha, hx⟩ := Act.bind_eq_value hx
        obtain rfl := asIndex_eq_cell hx
        have := keeps_of_before hnames hregistry (h t rfl) ha ⟨true, inPlace⟩
        infer_instance
      have hlate := pass_late inPlace (x := referent ⟨true, inPlace⟩ w names row >>= asIndex)
        (y := fun _ => referent ⟨true, inPlace⟩ w names t >>= asIndex)
        (k := fun i j => do
          let i ← settle i
          let j ← settle j
          return Referent.datum (Datum.entryIndex n i j)) hkeeps (fun _ _ => rfl) (fun _ _ _ => rfl)
      simp only [bind_assoc] at hlate
      exact hlate
    | _ => rfl

/-- Expressions are used by value if no operand is a local that a later sibling assigns. The site of a target
is then the one whose index was read. -/
theorem referent_byValue (t : Term) (h : t.Everywhere Node.Separate) :
    referent ⟨false, inPlace⟩ w names t = referent ⟨true, inPlace⟩ w names t ∧
      place ⟨true, inPlace⟩ w names t = place ⟨false, inPlace⟩ w names t >>= fixed := by
  induction t using Term.children_induction with
  | missing id => exact ⟨rfl, rfl⟩
  | node id content ih =>
    have hreferent (c : Term) (hc : c ∈ content.children) := (ih c hc (h.below hc)).1
    have hplace (c : Term) (hc : c ∈ content.children) := (ih c hc (h.below hc)).2
    have hfalse : pass ⟨false, inPlace⟩ = pure := rfl
    have hhere := h.here
    cases content with
    | value | external | block | conditional | loop | jump | declare => exact ⟨rfl, rfl⟩
    | localName name | field name =>
      refine ⟨rfl, ?_⟩
      rw [place, place, bind_assoc]
      rfl
    | binary op left right =>
      refine ⟨?_, rfl⟩
      rw [referent, referent, referentNode, referentNode, hreferent left (by simp), hreferent right (by simp)]
      by_cases hop : op.opClass = .logical
      · rw [if_pos hop, if_pos hop]
      · rw [if_neg hop, if_neg hop, hfalse]
        simp only [pure_bind]
        refine (pass_late inPlace (fun σ i ty σ' hx => ?_) (fun _ _ => rfl) (fun _ _ _ => rfl)).symm
        exact keeps_of_before hnames hregistry (hhere hop) hx _
    | unary op operand | cast ty operand =>
      refine ⟨?_, rfl⟩
      rw [referent, referent, referentNode, referentNode, hreferent operand (by simp)]
    | call name ts | pack ts =>
      have hts : referents ⟨true, inPlace⟩ w names ts = _ := referents_byValue hnames hregistry inPlace hreferent hhere
      refine ⟨?_, rfl⟩
      rw [referent, referent, referentNode, referentNode, hts]
      simp only [call, bind_assoc, settled_settleAll]
    | crement op post target =>
      refine ⟨?_, rfl⟩
      rw [referent, referent, referentNode, referentNode, hplace target (by simp), bind_assoc]
      funext σ
      refine Act.bind_congr fun site σ₁ hsite => ?_
      cases site with
      | whole base => rfl
      | component base loaded index => exact (step_fixed ⟨true, inPlace⟩ op post rfl).symm
    | assign target value compound =>
      refine ⟨?_, rfl⟩
      rw [referent, referent, referentNode, referentNode, hplace target (by simp),
        hreferent value (by simp), bind_assoc]
      funext σ
      refine Act.bind_congr fun site σ₁ hsite => ?_
      cases site with
      | whole base => rfl
      | component base loaded index =>
        refine Act.bind_congr fun a σ₂ ha => (assign_fixed ⟨true, inPlace⟩ compound ?_ a).symm
        cases index with
        | datum d => rfl
        | cell i ty =>
          obtain ⟨id, array, row, name, rfl, hbare, hcell⟩ := bare_of_place hsite
          have hbase : (Root.named name).base? w names = some (.cell i ty) := by rw [Root.base?, hcell]; rfl
          have hkeeps := (keeps_of_spares hnames hregistry hbase ⟨true, inPlace⟩ value (hhere id array row rfl name hbare)).1
          exact Store.read_cell_congr (hkeeps.content _ _ _ ha)
    | unpack array row column =>
      have hcolumn : column.map (referent ⟨false, inPlace⟩ w names) = column.map (referent ⟨true, inPlace⟩ w names) := by
        cases column with
        | none => rfl
        | some t => exact congrArg some (hreferent t (by simp))
      have hposition (ty : Ty) : position (pass ⟨true, inPlace⟩) ty (referent ⟨true, inPlace⟩ w names row) _ = _ :=
        position_byValue hnames hregistry inPlace ty fun t ht => (hhere.2 t ht).2
      constructor
      · rw [referent_unpack, referent_unpack, hreferent array (by simp), hreferent row (by simp), hcolumn]
        simp only [hposition]
        have hkeeps (σ : Store) (i : Nat) (ty : Ty) (σ' : Store)
            (hx : referent ⟨true, inPlace⟩ w names array σ = .value (.cell i ty) σ') :
            Keeps (.cell i ty) (position (pass ⟨false, inPlace⟩) ty (referent ⟨true, inPlace⟩ w names row)
              (column.map (referent ⟨true, inPlace⟩ w names))) := by
          have := keeps_of_before hnames hregistry hhere.1 hx ⟨true, inPlace⟩
          exact keeps_position _ _ (keeps_column fun t ht => keeps_of_before hnames hregistry (hhere.2 t ht).1 hx _)
        have hlate := pass_late inPlace (y := fun c => position (pass ⟨false, inPlace⟩) c.ty (referent ⟨true, inPlace⟩ w names row)
          (column.map (referent ⟨true, inPlace⟩ w names))) (k := component) hkeeps
          (fun a σ => by rw [show (Referent.datum (σ.read a)).ty = a.ty from σ.ty_read a]) (fun _ _ _ => rfl)
        exact hlate.symm
      · rw [place_unpack, place_unpack, hplace array (by simp), hreferent row (by simp), hcolumn]
        simp only [hposition, bind_assoc]
        funext σ
        refine Act.bind_congr fun site σ₁ _ => ?_
        cases site with
        | component => rfl
        | whole base =>
          simp only [fixed, pure_bind, bind_assoc, hfalse]
          rfl

end

/-- A program takes the same course if its operands are used by value. -/
theorem exec_eager {fuel : Nat} (hregistry : w.registry.Numbered) (t : Term) (h : t.Everywhere Node.Separate) :
    exec .lazy w fuel t {} = exec .eager w fuel t {} :=
  exec_congr (fun _ hnames t ht => (referent_byValue hnames hregistry false t ht).1) t h .empty

end Perform

end Elementwise
