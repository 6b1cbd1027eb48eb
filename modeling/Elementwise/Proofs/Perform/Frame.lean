import Elementwise.Proofs.Perform.Names
import Elementwise.Proofs.Registry.Build

/-!
# What expressions leave alone

An expression changes only the locals and fields that are assigned or stepped somewhere in it: different
locals have different cells, and different fields different slots. Disciplines that agree on the
expressions of a program agree on the program.
-/

namespace Elementwise

/-- Different fields have different slots. -/
theorem Registry.Numbered.index_inj {r : Registry} (h : r.Numbered) {name name' : String} {e e' : Entry}
    (he : r.get? name = some e) (he' : r.get? name' = some e') (heq : e.index = e'.index) : name = name' := by
  obtain ⟨i, hi⟩ := Table.exists_at?_of_get? he
  obtain ⟨j, hj⟩ := Table.exists_at?_of_get? he'
  have hij : i = j := by rw [← h i name e hi, ← h j name' e' hj, heq]
  rw [hij, hj] at hi
  exact (congrArg Prod.fst (Option.some.inj hi)).symm

/-- What is assigned, as a whole or in part. -/
inductive Root where
  | named (name : String)
  | field (name : String)
  deriving DecidableEq

/-- What an assignment to a target changes. -/
def Term.root? : Term → Option Root
  | .node _ (.localName name) => some (.named name)
  | .node _ (.field name _ _ _) => some (.field name)
  | .node _ (.unpack array _ _) => array.root?
  | _ => none

/-- The node does not assign or step a local or field. -/
def Node.Spares (r : Root) : Node Term → Prop
  | .assign target _ _ | .crement _ _ target => target.root? ≠ some r
  | _ => True

/-- A local or field is assigned nowhere in a term. -/
def Term.Spares (r : Root) (t : Term) : Prop := t.Everywhere (Node.Spares r)

/-- Where a local or field is kept. -/
def Root.base? (w : World) (names : Names) : Root → Option Base
  | .named name => (names.find? name).map fun cell => .cell cell.1 cell.2
  | .field name => (w.registry.get? name).map fun e => .slot e.index e.ty

/-- The base of a site. -/
def Site.base : Site → Base
  | .whole base => base
  | .component base _ _ => base

namespace Store

/-- What a base holds, if anything was put there. -/
def content (σ : Store) : Base → Option Value
  | .cell index _ => σ.cells index
  | .slot slot _ => σ.element.read? slot

/-- A base that holds the same is loaded alike. -/
theorem load_congr {σ σ' : Store} {base : Base} (h : σ'.content base = σ.content base) : σ'.load base = σ.load base := by
  cases base with
  | cell => rfl
  | slot => rw [load, load, slot, slot, show σ'.element.read? _ = σ.element.read? _ from h]

/-- A base that holds the same reads the same. -/
theorem read_cell_congr {σ σ' : Store} {index : Nat} {ty : Ty}
    (h : σ'.content (.cell index ty) = σ.content (.cell index ty)) : σ'.read (.cell index ty) = σ.read (.cell index ty) := by
  rw [read, read, cell, cell, show σ'.cells index = σ.cells index from h]

/-- What one local or field gets does not change what another one holds. -/
theorem content_set {w : World} {names : Names} (hnames : names.Numbered) (hregistry : w.registry.Numbered) {r r' : Root}
    {base base' : Base} (hr : r.base? w names = some base) (hr' : r'.base? w names = some base') (hne : r' ≠ r) (σ : Store)
    (d : Datum) : (σ.set base' d).content base = σ.content base := by
  cases r with
  | named name =>
    obtain ⟨⟨i, ty⟩, hi, rfl⟩ := Option.map_eq_some_iff.mp hr
    cases r' with
    | named name' =>
      obtain ⟨⟨j, ty'⟩, hj, rfl⟩ := Option.map_eq_some_iff.mp hr'
      have hij : i ≠ j := fun heq => hne (congrArg Root.named (hnames.find?_inj hj (heq ▸ hi)))
      simp [content, set, setCell, hij]
    | field name' =>
      obtain ⟨e, -, rfl⟩ := Option.map_eq_some_iff.mp hr'
      rfl
  | field name =>
    obtain ⟨e, he, rfl⟩ := Option.map_eq_some_iff.mp hr
    cases r' with
    | named name' =>
      obtain ⟨⟨j, ty'⟩, -, rfl⟩ := Option.map_eq_some_iff.mp hr'
      rfl
    | field name' =>
      obtain ⟨e', he', rfl⟩ := Option.map_eq_some_iff.mp hr'
      have hindex : e'.index ≠ e.index := fun heq => hne (congrArg Root.field (hregistry.index_inj he' he heq))
      simp only [content, set, ElementState.write, ElementState.read?]
      split
      · exact Array.getElem?_setIfInBounds_ne hindex
      · rfl

end Store

namespace Act

variable {α β : Type}

/-- An action that changes nothing in the store. -/
class Still (x : Act α) : Prop where
  still : ∀ σ a σ', x σ = .value a σ' → σ' = σ

/-- An action after which a base holds what it held. -/
class Keeps (base : Base) (x : Act α) : Prop where
  content : ∀ σ a σ', x σ = .value a σ' → σ'.content base = σ.content base

theorem bind_eq_value {x : Act α} {k : α → Act β} {σ σ' : Store} {b : β} (h : (x >>= k) σ = .value b σ') :
    ∃ a σ₁, x σ = .value a σ₁ ∧ k a σ₁ = .value b σ' := by
  rw [bind_apply] at h
  cases hx : x σ with
  | value a σ₁ =>
    rw [hx] at h
    exact ⟨a, σ₁, rfl, h⟩
  | fault reason σ₁ =>
    rw [hx] at h
    cases h
  | stuck =>
    rw [hx] at h
    cases h

/-- Two ways to go on that agree where the first action ends. -/
theorem bind_congr {x : Act α} {k k' : α → Act β} {σ : Store} (h : ∀ a σ₁, x σ = .value a σ₁ → k a σ₁ = k' a σ₁) :
    (x >>= k) σ = (x >>= k') σ := by
  rw [bind_apply, bind_apply]
  cases hx : x σ with
  | value a σ₁ => exact h a σ₁ hx
  | fault | stuck => rfl

namespace Still

instance (a : α) : Still (pure a : Act α) := ⟨fun _ _ _ h => (Result.value.inj h).2.symm⟩
instance : Still (stuck : Act α) := ⟨fun _ _ _ h => nomatch h⟩
instance (r : Option α) : Still (ofOption r) := by cases r <;> (unfold ofOption; infer_instance)
instance (f : Store → α) : Still (look f) := ⟨fun _ _ _ h => (Result.value.inj h).2.symm⟩
instance (x : Act α) (k : α → Act β) [hx : Still x] [hk : ∀ a, Still (k a)] : Still (x >>= k) := by
  refine ⟨fun σ b σ' h => ?_⟩
  obtain ⟨a, σ₁, ha, hb⟩ := bind_eq_value h
  rw [(hk a).still _ _ _ hb, hx.still _ _ _ ha]
instance (p : Prop) [Decidable p] (x y : Act α) [Still x] [Still y] : Still (if p then x else y) := by
  split <;> infer_instance

end Still

namespace Keeps

variable {base : Base}

instance (x : Act α) [h : Still x] : Keeps base x := ⟨fun _ _ _ heq => by rw [h.still _ _ _ heq]⟩
instance (f : ElementState → Eval α) : Keeps base (compute f) := by
  refine ⟨fun σ a σ' h => ?_⟩
  unfold compute at h
  split at h
  · obtain ⟨-, rfl⟩ := Result.value.inj h
    cases base <;> rfl
  · cases h
  · cases h

theorem bind {x : Act α} {k : α → Act β} (hx : Keeps base x) (hk : ∀ σ a σ', x σ = .value a σ' → Keeps base (k a)) :
    Keeps base (x >>= k) := by
  refine ⟨fun σ b σ' h => ?_⟩
  obtain ⟨a, σ₁, ha, hb⟩ := bind_eq_value h
  exact ((hk σ a σ₁ ha).content _ _ _ hb).trans (hx.content _ _ _ ha)

instance (x : Act α) (k : α → Act β) [hx : Keeps base x] [hk : ∀ a, Keeps base (k a)] : Keeps base (x >>= k) :=
  hx.bind fun _ a _ _ => hk a
instance (p : Prop) [Decidable p] (x y : Act α) [Keeps base x] [Keeps base y] : Keeps base (if p then x else y) := by
  split <;> infer_instance

end Keeps

end Act

namespace Perform

open Act (Still Keeps)

instance (h : Referent) : Still (settle h) := inferInstanceAs (Still (Act.look _))
instance (hs : List Referent) : Still (settleAll hs) := inferInstanceAs (Still (Act.look _))
instance (δ : Discipline) (h : Referent) : Still (pass δ h) := by
  unfold pass
  rw [map_eq_pure_bind]
  infer_instance
instance (h : Referent) (goal : Ty) : Still (convert h goal) := by unfold convert; infer_instance
instance (h : Referent) (goal : Ty) : Still (coerce h goal) := by unfold coerce; infer_instance
instance (h : Referent) : Still (asIndex h) := by unfold asIndex; infer_instance
instance (h : Referent) : Still (truth h) := by unfold truth; infer_instance
instance (op : BinaryOp) (l r : Referent) : Still (operate op l r) := by unfold operate; infer_instance
instance (c i : Referent) : Still (component c i) := by unfold component; infer_instance
instance (δ : Discipline) (base : Base) (loaded : Referent) : Still (container δ base loaded) := by
  unfold container; infer_instance
instance (δ : Discipline) (site : Site) : Still (load δ site) := by cases site <;> (unfold load; infer_instance)
instance (δ : Discipline) (compound : Option BinaryOp) (site : Site) (h : Referent) : Still (revised δ compound site h) := by
  cases compound <;> (unfold revised; infer_instance)
instance (names : Names) (name : String) : Still (local? names name) := inferInstanceAs (Still (Act.ofOption _))
instance (w : World) (name : String) : Still (entry w name) := inferInstanceAs (Still (Act.ofOption _))

variable {base : Base}

instance (name : String) (hs : List Referent) : Keeps base (call name hs) := by unfold call; infer_instance

/-- The position of a component keeps a base if its parts do. -/
theorem keeps_position (δ : Discipline) (ty : Ty) {row : Act Referent} [Keeps base row] {column : Option (Act Referent)}
    (hcolumn : ∀ x, column = some x → Keeps base x) : Keeps base (position (pass δ) ty row column) := by
  cases column with
  | none => cases ty <;> (unfold position; infer_instance)
  | some x =>
    have := hcolumn x rfl
    cases ty <;> (unfold position; infer_instance)

section

variable {w : World} {names : Names} {r : Root} {δ : Discipline}

/-- A store keeps every other local and field. -/
theorem keeps_store (hnames : names.Numbered) (hregistry : w.registry.Numbered) (hr : r.base? w names = some base) {r' : Root}
    (hne : r' ≠ r) {site : Site} (hsite : r'.base? w names = some site.base) (h : Referent) : Keeps base (store δ site h) := by
  have hset (d : Datum) : Keeps base (Act.change fun σ => σ.set site.base d) := by
    refine ⟨fun σ a σ' heq => ?_⟩
    obtain ⟨-, rfl⟩ := Result.value.inj heq
    exact Store.content_set hnames hregistry hr hsite hne σ d
  cases site with
  | whole b | component b loaded index =>
    have (d : Datum) : Keeps base (Act.change fun σ => σ.set b d) := hset d
    unfold store
    infer_instance

/-- The site of a target is in the local or field that an assignment to it changes. -/
theorem base_of_place {t : Term} {σ σ' : Store} {site : Site} (h : place δ w names t σ = .value site σ') :
    ∃ r, t.root? = some r ∧ r.base? w names = some site.base := by
  induction t using Term.children_induction generalizing σ σ' site with
  | missing id => cases h
  | node id content ih =>
    cases content with
    | localName name =>
      rw [place, local?] at h
      cases hcell : names.find? name with
      | none =>
        rw [hcell] at h
        cases h
      | some cell =>
        rw [hcell] at h
        obtain ⟨rfl, -⟩ := Result.value.inj h
        exact ⟨.named name, rfl, by rw [Root.base?, hcell]; rfl⟩
    | field name ty inferred writable =>
      rw [place, entry] at h
      cases he : w.registry.get? name with
      | none =>
        rw [he] at h
        cases h
      | some e =>
        rw [he] at h
        obtain ⟨rfl, -⟩ := Result.value.inj h
        exact ⟨.field name, rfl, by rw [Root.base?, he]; rfl⟩
    | unpack array row column =>
      rw [place_unpack] at h
      obtain ⟨site₁, σ₁, harray, h⟩ := Act.bind_eq_value h
      obtain ⟨r, hroot, hbase⟩ := ih array (by simp) harray
      cases site₁ with
      | component => cases h
      | whole base =>
        obtain ⟨loaded, σ₂, -, h⟩ := Act.bind_eq_value h
        obtain ⟨i, σ₃, -, h⟩ := Act.bind_eq_value h
        obtain ⟨i', σ₄, -, h⟩ := Act.bind_eq_value h
        obtain ⟨rfl, -⟩ := Result.value.inj h
        exact ⟨r, hroot, hbase⟩
    | _ => cases h

/-- Expressions keep a base if each of them does. -/
theorem keeps_referents {ts : List Term} (h : ∀ t ∈ ts, Keeps base (referent δ w names t)) : Keeps base (referents δ w names ts) := by
  induction ts with
  | nil => exact inferInstanceAs (Keeps base (pure []))
  | cons t ts ih =>
    rw [List.forall_mem_cons] at h
    have := h.1
    have := ih h.2
    rw [referents]
    infer_instance

/-- The column of a position keeps a base if it does as an expression. -/
theorem keeps_column {column : Option Term} (h : ∀ t, column = some t → Keeps base (referent δ w names t)) (x : Act Referent)
    (hx : column.map (referent δ w names) = some x) : Keeps base x := by
  obtain ⟨t, rfl, rfl⟩ := Option.map_eq_some_iff.mp hx
  exact h t rfl

/-- An expression leaves alone what is not assigned in it. -/
theorem keeps_of_spares (hnames : names.Numbered) (hregistry : w.registry.Numbered) (hr : r.base? w names = some base)
    (δ : Discipline) (t : Term) (h : t.Spares r) :
    Keeps base (referent δ w names t) ∧ Keeps base (place δ w names t) := by
  induction t using Term.children_induction with
  | missing id =>
    constructor <;> exact inferInstanceAs (Keeps base Act.stuck)
  | node id content ih =>
    have hreferent (c : Term) (hc : c ∈ content.children) : Keeps base (referent δ w names c) := (ih c hc (h.below hc)).1
    have hplace (c : Term) (hc : c ∈ content.children) : Keeps base (place δ w names c) := (ih c hc (h.below hc)).2
    have hhere := h.here
    -- what is assigned here is another local or field
    have hstore {target : Term} (hne : target.root? ≠ some r) {σ σ' : Store} {site : Site}
        (hsite : place δ w names target σ = .value site σ') (a : Referent) : Keeps base (store δ site a) := by
      obtain ⟨r', hroot, hbase⟩ := base_of_place hsite
      exact keeps_store hnames hregistry hr (fun heq => hne (heq ▸ hroot)) hbase a
    have hstuck : Keeps base (Act.stuck : Act Site) := inferInstance
    cases content with
    | value | external | block | conditional | loop | jump | declare =>
      refine ⟨?_, hstuck⟩
      rw [referent, referentNode]
      infer_instance
    | localName name | field name =>
      constructor
      · rw [referent, referentNode]
        infer_instance
      · rw [place]
        infer_instance
    | binary op left right =>
      have := hreferent left (by simp)
      have := hreferent right (by simp)
      refine ⟨?_, hstuck⟩
      rw [referent, referentNode]
      infer_instance
    | unary op operand | cast op operand =>
      have := hreferent operand (by simp)
      refine ⟨?_, hstuck⟩
      rw [referent, referentNode]
      infer_instance
    | call name args =>
      have : Keeps base (referents δ w names args) := keeps_referents hreferent
      refine ⟨?_, hstuck⟩
      rw [referent, referentNode]
      split <;> infer_instance
    | pack items =>
      have : Keeps base (referents δ w names items) := keeps_referents hreferent
      refine ⟨?_, hstuck⟩
      rw [referent, referentNode]
      infer_instance
    | crement op post target =>
      refine ⟨?_, hstuck⟩
      refine (hplace target (by simp)).bind fun σ site σ' hsite => ?_
      have := hstore hhere hsite
      unfold step
      infer_instance
    | assign target value compound =>
      have := hreferent value (by simp)
      refine ⟨?_, hstuck⟩
      refine (hplace target (by simp)).bind fun σ site σ' hsite => ?_
      have := hstore hhere hsite
      simp only [assign_eq]
      infer_instance
    | unpack array row column =>
      have := hreferent array (by simp)
      have := hreferent row (by simp)
      have hcolumn : ∀ x, column.map (referent δ w names) = some x → Keeps base x :=
        keeps_column fun t ht => hreferent t (by simp [ht])
      have (ty : Ty) : Keeps base (position (pass δ) ty (referent δ w names row) (column.map (referent δ w names))) :=
        keeps_position δ ty hcolumn
      constructor
      · rw [referent_unpack]
        infer_instance
      · rw [place_unpack]
        refine (hplace array (by simp)).bind fun σ site σ' _ => ?_
        cases site <;> infer_instance

end

/-- The course of statements does not depend on a discipline on which their expressions do not depend. -/
theorem exec_congr {w : World} {fuel : Nat} {δ δ' : Discipline} {P : Node Term → Prop}
    (h : ∀ names : Names, names.Numbered → ∀ t : Term, t.Everywhere P → referent δ w names t = referent δ' w names t)
    (t : Term) (ht : t.Everywhere P) {names : Names} (hnames : names.Numbered) :
    exec δ w fuel t names = exec δ' w fuel t names := by
  induction t using Term.children_induction generalizing names with
  | missing id => rfl
  | node id content ih =>
    have hreferent {names : Names} (hnames : names.Numbered) (c : Term) (hc : c ∈ content.children) :
        referent δ w names c = referent δ' w names c := h names hnames c (ht.below hc)
    have hexec {names : Names} (hnames : names.Numbered) (c : Term) (hc : c ∈ content.children) :
        exec δ w fuel c names = exec δ' w fuel c names := ih c hc (ht.below hc) hnames
    funext σ
    cases content with
    | block statements =>
      have hall {names : Names} (hnames : names.Numbered) (ts : List Term)
          (hts : ∀ t ∈ ts, ∀ names : Names, names.Numbered → exec δ w fuel t names = exec δ' w fuel t names) :
          execAll δ w fuel ts names = execAll δ' w fuel ts names := by
        induction ts generalizing names with
        | nil => rfl
        | cons t ts ih =>
          rw [List.forall_mem_cons] at hts
          funext σ
          rw [execAll, execAll, hts.1 names hnames, ih ((Names.grown_after t names).numbered hnames) hts.2]
      exact congrFun (hall hnames.enter statements fun t ht names hnames => hexec hnames t ht) σ
    | conditional test thenBranch elseBranch =>
      have hnames₁ := (Names.grown_after thenBranch names).numbered hnames
      rw [exec, exec, holds, holds, hreferent hnames test (by simp),
        hexec hnames thenBranch (by simp), hexec hnames₁ elseBranch (by simp)]
    | loop kind start test step body =>
      have hmaybe {names : Names} (hnames : names.Numbered) (part : Option Term)
          (hpart : ∀ t, part = some t → t ∈ (Node.loop kind start test step body).children) :
          exec? δ w fuel part names = exec? δ' w fuel part names := by
        cases part with
        | none => rfl
        | some t => exact hexec hnames t (hpart t rfl)
      have hnames₁ := (Names.grown_after? start names.enter).numbered hnames.enter
      have hnames₂ := (Names.grown_after body (names.enter.after? start)).numbered hnames₁
      have htest : continues δ w (names.enter.after? start) test = continues δ' w (names.enter.after? start) test := by
        cases test with
        | none => rfl
        | some t => rw [continues, continues, holds, holds, hreferent hnames₁ t (by simp)]
      rw [exec_loop, exec_loop, hmaybe hnames.enter start (by rintro t rfl; simp), htest,
        hexec hnames₁ body (by simp), hmaybe hnames₂ step (by rintro t rfl; simp)]
    | declare ty name start =>
      have hstart : initial δ w names ty start = initial δ' w names ty start := by
        cases start with
        | none => rfl
        | some t => rw [initial, initial, hreferent hnames t (by simp)]
      rw [exec, exec, hstart]
    | jump word => rfl
    | _ => exact congrArg (fun x : Act Referent => (x σ).andThen fun _ s => .done .next s) (h names hnames _ ht)

end Perform

end Elementwise
