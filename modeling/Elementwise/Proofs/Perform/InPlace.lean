import Elementwise.Proofs.Perform.Frame

/-!
# Components replaced in place

A component of a local is replaced in what the local holds. A component of a field is replaced in what was
loaded before its index and the value were evaluated; that is what the field still holds if neither of them
assigns the field. A replacement in place changes the addressed component and no other one, in a local and
in a field alike.
-/

namespace Elementwise

namespace Value

variable {v i j x : Value}

/-- The other components stay. -/
theorem extractAt?_insertAt_ne (h : j.index? ≠ i.index?) : (v.insertAt i x).extractAt? j = v.extractAt? j := by
  unfold insertAt extractAt?
  cases hi : i.index? with
  | none => rfl
  | some m =>
    cases hj : j.index? with
    | none => rfl
    | some n =>
      have hne : m ≠ n := fun heq => h (by rw [hi, hj, heq])
      cases v <;> simp [insert, extract?, List.getElem?_set_ne hne]

/-- The component that was replaced, if there is one. -/
theorem extractAt?_insertAt (h : (v.extractAt? i).isSome) : (v.insertAt i x).extractAt? i = some x := by
  unfold insertAt extractAt? at *
  cases hi : i.index? with
  | none => simp [hi] at h
  | some n => cases v <;> simp_all [insert, extract?]

end Value

/-- One component of a base was replaced: the addressed one, if there is one, is what was put there, every other
one is what it was, and so is all that is kept elsewhere. -/
structure Store.Replaces (σ : Store) (base : Base) (i x : Datum) (σ' : Store) : Prop where
  other : ∀ j : Datum, j.value.index? ≠ i.value.index? →
    (σ'.read (σ'.load base)).component j = (σ.read (σ.load base)).component j
  addressed : (σ.content base).isSome → ((σ.read (σ.load base)).value.extractAt? i.value).isSome →
    (σ'.read (σ'.load base)).component i = ⟨base.ty.elementTy, x.value⟩
  cells : ∀ index, (∀ ty, base ≠ .cell index ty) → σ'.cells index = σ.cells index
  slots : ∀ slot, (∀ ty, base ≠ .slot slot ty) →
    σ'.element.read? slot = σ.element.read? slot ∧ σ'.element.written[slot]? = σ.element.written[slot]?
  calls : σ'.calls = σ.calls

namespace Store

/-- What is put into a base is what it holds then; an element has no slot beyond its last one. -/
theorem read_load_set (σ : Store) {base : Base} {d : Datum} (hty : d.ty = base.ty) :
    (σ.set base d).read ((σ.set base d).load base) = d ∨ σ.content base = none ∧ σ.set base d = σ := by
  obtain ⟨ty', v⟩ := d
  cases base with
  | cell index ty =>
    obtain rfl : ty' = ty := hty
    exact .inl (by simp [load, read, cell, set, setCell])
  | slot slot ty =>
    obtain rfl : ty' = ty := hty
    by_cases hlt : slot < σ.element.values.size
    · exact .inl (by simp [load, read, Store.slot, set, ElementState.write, ElementState.read?, hlt])
    · refine .inr ⟨?_, ?_⟩
      · simpa [content, ElementState.read?] using hlt
      · rw [set, ElementState.write, if_neg hlt]

/-- A component of a base is replaced by putting back the base with that component replaced. -/
theorem replaces_set (σ : Store) (base : Base) (i x : Datum) :
    σ.Replaces base i x (σ.set base ((σ.read (σ.load base)).replace i x)) := by
  have hty : ((σ.read (σ.load base)).replace i x).ty = base.ty := by
    cases base <;> rfl
  refine ⟨fun j hj => ?_, fun hcontent hcomponent => ?_, fun index hindex => ?_, fun slot hslot => ?_, ?_⟩
  · rcases σ.read_load_set hty with heq | ⟨-, heq⟩
    · rw [heq, Datum.component, Datum.component, Datum.replace, Value.extractAt?_insertAt_ne hj]
    · rw [heq]
  · rcases σ.read_load_set hty with heq | ⟨hnone, -⟩
    · rw [heq, Datum.component, hty, Datum.replace, Value.extractAt?_insertAt hcomponent]
      rfl
    · rw [hnone] at hcontent
      cases hcontent
  · cases base with
    | cell index' ty =>
      have hne : index ≠ index' := fun heq => hindex ty (heq ▸ rfl)
      simp [set, setCell, hne]
    | slot => rfl
  · cases base with
    | cell => exact ⟨rfl, rfl⟩
    | slot slot' ty =>
      have hne : slot' ≠ slot := fun heq => hslot ty (heq ▸ rfl)
      simp only [set, ElementState.write, ElementState.read?]
      split
      · exact ⟨Array.getElem?_setIfInBounds_ne hne, Array.getElem?_setIfInBounds_ne hne⟩
      · exact ⟨rfl, rfl⟩
  · cases base <;> rfl

/-- The base of a component still holds what was loaded from it; a whole base was not loaded. -/
def Current (σ : Store) : Site → Prop
  | .whole _ => True
  | .component base loaded _ => σ.load base = loaded

end Store

/-- The indices of a target. -/
def Term.indices : Term → List Term
  | .node _ (.unpack _ row column) => row :: column.toList
  | _ => []

/-- Where a component of a field is assigned or stepped, neither its indices nor the value assign the field. -/
def Node.Undisturbed : Node Term → Prop
  | .assign target assigned _ => ∀ name, target.root? = some (.field name) →
    ∀ i ∈ target.indices, i.Spares (.field name) ∧ assigned.Spares (.field name)
  | .crement _ _ target => ∀ name, target.root? = some (.field name) → ∀ i ∈ target.indices, i.Spares (.field name)
  | _ => True

namespace Perform

variable {w : World} {names : Names} {σ : Store} {site : Site}

/-- A store in place replaces one component. -/
theorem store_replaces {δ : Discipline} (hδ : δ.inPlace = true) (base : Base) (loaded index h : Referent) (σ : Store) :
    ∃ σ', store δ (.component base loaded index) h σ = .value () σ' ∧ σ.Replaces base (σ.read index) (σ.read h) σ' := by
  refine ⟨_, ?_, σ.replaces_set base (σ.read index) (σ.read h)⟩
  rw [store, container, if_pos hδ]
  rfl

/-- What a site holds does not depend on when its base was loaded, if that is what the base holds. -/
theorem load_inPlace (byValue : Bool) (h : σ.Current site) : load ⟨byValue, false⟩ site σ = load ⟨byValue, true⟩ site σ := by
  cases site with
  | whole base => rfl
  | component base loaded index =>
    obtain rfl : σ.load base = loaded := h
    rfl

/-- A component is stored in place if its base holds what was loaded. -/
theorem store_inPlace (byValue : Bool) (h : σ.Current site) (a : Referent) :
    store ⟨byValue, false⟩ site a σ = store ⟨byValue, true⟩ site a σ := by
  cases site with
  | whole base => rfl
  | component base loaded index =>
    obtain rfl : σ.load base = loaded := h
    rfl

/-- A component is assigned in place if its base holds what was loaded. -/
theorem assign_inPlace (byValue : Bool) (compound : Option BinaryOp) (h : σ.Current site) (a : Referent) :
    assign ⟨byValue, false⟩ compound site a σ = assign ⟨byValue, true⟩ compound site a σ := by
  have hrevised : revised ⟨byValue, false⟩ compound site a σ = revised ⟨byValue, true⟩ compound site a σ := by
    cases compound with
    | none => rfl
    | some op => rw [revised, revised, Act.bind_apply, Act.bind_apply, load_inPlace byValue h]
  rw [assign_eq, assign_eq, Act.bind_apply, hrevised, ← Act.bind_apply]
  refine Act.bind_congr fun b σ₁ hb => ?_
  rw [Act.Still.still _ _ _ hb, Act.bind_apply, store_inPlace byValue h, ← Act.bind_apply]

/-- A component is stepped in place if its base holds what was loaded. -/
theorem step_inPlace (byValue : Bool) (op : CrementOp) (post : Bool) (h : σ.Current site) :
    step ⟨byValue, false⟩ op post site σ = step ⟨byValue, true⟩ op post site σ := by
  rw [step, step, Act.bind_apply, load_inPlace byValue h, ← Act.bind_apply]
  refine Act.bind_congr fun current σ₁ hcurrent => Act.bind_congr fun d σ₂ hd => ?_
  obtain rfl := Act.Still.still _ _ _ hcurrent
  obtain rfl := Act.Still.still _ _ _ hd
  rw [Act.bind_apply, store_inPlace byValue h, ← Act.bind_apply]

/-- What a local or a field holds stays current over what does not assign the field. -/
theorem current_of_content {r : Root} (hr : r.base? w names = some site.base) {σ' : Store} (h : σ.Current site)
    (hcontent : ∀ name, r = .field name → σ'.content site.base = σ.content site.base) : σ'.Current site := by
  cases site with
  | whole base => trivial
  | component base loaded index =>
    cases r with
    | named name =>
      obtain ⟨cell, -, rfl⟩ := Option.map_eq_some_iff.mp hr
      exact h
    | field name => exact (Store.load_congr (hcontent name rfl)).trans h

/-- Only a target with an index stands for a component. -/
theorem indices_of_place {δ : Discipline} {target : Term} {σ' : Store} {base : Base} {loaded index : Referent}
    (h : place δ w names target σ = .value (.component base loaded index) σ') : target.indices ≠ [] := by
  rcases target with id | ⟨id, content⟩
  · cases h
  cases content with
  | unpack array row column => exact List.cons_ne_nil _ _
  | localName name | field name =>
    obtain ⟨found, σ₁, -, h⟩ := Act.bind_eq_value h
    cases (Result.value.inj h).1
  | _ => cases h

/-- Expressions do not depend on a discipline on which none of them depends. -/
theorem referents_congr {δ δ' : Discipline} (hpass : pass δ = pass δ') {ts : List Term}
    (h : ∀ t ∈ ts, referent δ w names t = referent δ' w names t) : referents δ w names ts = referents δ' w names ts := by
  induction ts with
  | nil => rfl
  | cons t ts ih =>
    rw [List.forall_mem_cons] at h
    rw [referents, referents, h.1, hpass, ih h.2]

section

variable (hnames : names.Numbered) (hregistry : w.registry.Numbered)

include hnames hregistry

/-- The base of a component still holds what was loaded if no index assigns it. -/
theorem current_of_place {δ : Discipline} {target : Term} {σ' : Store}
    (h : ∀ name, target.root? = some (.field name) → ∀ i ∈ target.indices, i.Spares (.field name))
    (hsite : place δ w names target σ = .value site σ') : σ'.Current site := by
  obtain ⟨r, hroot, hr⟩ := base_of_place hsite
  cases site with
  | whole => trivial
  | component base loaded index =>
    rcases target with id | ⟨id, content⟩
    · cases hsite
    cases content with
    | unpack array row column =>
      rw [place_unpack] at hsite
      obtain ⟨site₁, σ₁, -, hsite⟩ := Act.bind_eq_value hsite
      cases site₁ with
      | component => cases hsite
      | whole base =>
        obtain ⟨loaded, σ₂, hloaded, hsite⟩ := Act.bind_eq_value hsite
        obtain ⟨i, σ₃, hposition, hsite⟩ := Act.bind_eq_value hsite
        obtain ⟨i', σ₄, hpass, hsite⟩ := Act.bind_eq_value hsite
        obtain ⟨heq, rfl⟩ := Result.value.inj hsite
        obtain ⟨rfl, rfl, rfl⟩ := Site.component.inj heq
        obtain ⟨rfl, rfl⟩ := Result.value.inj hloaded
        obtain rfl := Act.Still.still _ _ _ hpass
        have hloaded : σ₁.Current (.component base (σ₁.load base) i') := rfl
        refine current_of_content hr hloaded ?_
        rintro name rfl
        have hkeeps (t : Term) (ht : t ∈ row :: column.toList) : Act.Keeps base (referent δ w names t) :=
          (keeps_of_spares hnames hregistry hr δ t (h name hroot t ht)).1
        have hrow := hkeeps row List.mem_cons_self
        have hcolumn : ∀ x, column.map (referent δ w names) = some x → Act.Keeps base x :=
          keeps_column fun t ht => hkeeps t (by simp [ht])
        exact (keeps_position δ _ hcolumn).content _ _ _ hposition
    | _ => exact absurd rfl (indices_of_place hsite)

/-- Expressions are performed in place if nothing between the load of a field and the store of a component of
it assigns the field. -/
theorem referent_inPlace (byValue : Bool) (t : Term) (h : t.Everywhere Node.Undisturbed) :
    referent ⟨byValue, false⟩ w names t = referent ⟨byValue, true⟩ w names t ∧
      place ⟨byValue, false⟩ w names t = place ⟨byValue, true⟩ w names t := by
  induction t using Term.children_induction with
  | missing id => exact ⟨rfl, rfl⟩
  | node id content ih =>
    have hreferent (c : Term) (hc : c ∈ content.children) := (ih c hc (h.below hc)).1
    have hplace (c : Term) (hc : c ∈ content.children) := (ih c hc (h.below hc)).2
    have hpass : pass ⟨byValue, false⟩ = pass ⟨byValue, true⟩ := rfl
    have hhere := h.here
    cases content with
    | value | external | block | conditional | loop | jump | declare => exact ⟨rfl, rfl⟩
    | localName name | field name => exact ⟨rfl, by rw [place, place]⟩
    | binary op left right =>
      refine ⟨?_, rfl⟩
      rw [referent, referent, referentNode, referentNode, hreferent left (by simp), hreferent right (by simp),
        hpass]
    | unary op operand | cast ty operand =>
      refine ⟨?_, rfl⟩
      rw [referent, referent, referentNode, referentNode, hreferent operand (by simp)]
    | call name ts | pack ts =>
      have hts : referents ⟨byValue, false⟩ w names ts = referents ⟨byValue, true⟩ w names ts :=
        referents_congr hpass hreferent
      refine ⟨?_, rfl⟩
      rw [referent, referent, referentNode, referentNode, hts]
    | crement op post target =>
      refine ⟨?_, rfl⟩
      rw [referent, referent, referentNode, referentNode, hplace target (by simp)]
      funext σ
      refine Act.bind_congr fun site σ₁ hsite => step_inPlace byValue op post ?_
      exact current_of_place hnames hregistry hhere hsite
    | assign target value compound =>
      refine ⟨?_, rfl⟩
      rw [referent, referent, referentNode, referentNode, hplace target (by simp),
        hreferent value (by simp)]
      funext σ
      refine Act.bind_congr fun site σ₁ hsite => Act.bind_congr fun a σ₂ ha => assign_inPlace byValue compound ?_ a
      have hcurrent := current_of_place hnames hregistry (fun name hname i hi => (hhere name hname i hi).1) hsite
      obtain ⟨r, hroot, hr⟩ := base_of_place hsite
      cases site with
      | whole => trivial
      | component base loaded index =>
        refine current_of_content hr hcurrent ?_
        rintro name rfl
        obtain ⟨i, hi⟩ := List.exists_mem_of_ne_nil _ (indices_of_place hsite)
        have hkeeps := (keeps_of_spares hnames hregistry hr ⟨byValue, true⟩ value (hhere name hroot i hi).2).1
        exact hkeeps.content _ _ _ ha
    | unpack array row column =>
      have hcolumn : column.map (referent ⟨byValue, false⟩ w names) = column.map (referent ⟨byValue, true⟩ w names) := by
        cases column with
        | none => rfl
        | some t => exact congrArg some (hreferent t (by simp))
      constructor
      · rw [referent_unpack, referent_unpack, hreferent array (by simp), hreferent row (by simp),
          hcolumn, hpass]
      · rw [place_unpack, place_unpack, hplace array (by simp), hreferent row (by simp),
          hcolumn, hpass]

end

/-- A program takes the same course if its components are replaced in place. -/
theorem exec_direct {fuel : Nat} (hregistry : w.registry.Numbered) (t : Term) (h : t.Everywhere Node.Undisturbed) :
    exec .lazy w fuel t {} = exec .direct w fuel t {} :=
  exec_congr (fun _ hnames t ht => (referent_inPlace hnames hregistry false t ht).1) t h .empty

end Perform

end Elementwise
