import Mathlib.Data.List.Forall2
import Elementwise.Tree.Node

/-!
# Nodes of one shape

A node is its shape and its children in order. Replacing the children of a node keeps its shape, and
nodes of one shape with related children are related part by part.
-/

namespace Elementwise.Node

variable {α β γ σ : Type}

variable {n : Node α} {n' : Node β}

-- the children are read off the constructor, and only there
attribute [simp] children.eq_1 children.eq_2 children.eq_3 children.eq_4 children.eq_5 children.eq_6 children.eq_7
  children.eq_8 children.eq_9 children.eq_10 children.eq_11 children.eq_12 children.eq_13 children.eq_14 children.eq_15
  children.eq_16 children.eq_17

section

variable (f : α → β)

@[simp] theorem map_block (statements : List α) : (block statements).map f = block (statements.map f) := by
  simp [map, mapM]

@[simp] theorem map_call (name : String) (args : List α) : (call name args).map f = call name (args.map f) := by
  simp [map, mapM]

@[simp] theorem map_pack (items : List α) : (pack items).map f = pack (items.map f) := by
  simp [map, mapM]

@[simp] theorem map_loop (kind : LoopKind) (start condition step : Option α) (body : α) :
    (loop kind start condition step body).map f =
      loop kind (start.map f) (condition.map f) (step.map f) (f body) := by
  cases start <;> cases condition <;> cases step <;> rfl

@[simp] theorem map_declare (ty : Ty) (name : α) (start : Option α) :
    (declare ty name start).map f = declare ty (f name) (start.map f) := by
  cases start <;> rfl

@[simp] theorem map_unpack (array index : α) (column : Option α) :
    (unpack array index column).map f = unpack (f array) (f index) (column.map f) := by
  cases column <;> rfl

/-- The children after replacing each of them. -/
@[simp] theorem children_map (n : Node α) : (n.map f).children = n.children.map f := by
  cases n with
  | block | call | pack | loop | declare | unpack => simp [Option.toList_map]
  | _ => rfl

/-- Replacing children twice is replacing them once. -/
@[simp] theorem map_map (g : β → γ) (n : Node α) : (n.map f).map g = n.map (g ∘ f) := by
  cases n with
  | block | call | pack | loop | declare | unpack => simp
  | _ => rfl

end

/-- A node without its children. -/
def shape (n : Node α) : Node Unit := n.map fun _ => ()

/-- Replacing children keeps the shape. -/
@[simp] theorem shape_map (f : α → β) (n : Node α) : (n.map f).shape = n.shape := by
  rw [shape, map_map]
  rfl

/-- Nodes of one shape have the same number of children. -/
theorem length_children_of_shape_eq (h : n.shape = n'.shape) : n.children.length = n'.children.length := by
  have hchildren := congrArg (fun n => n.children.length) h
  simpa [shape] using hchildren

@[simp] theorem kind_map (f : α → β) (n : Node α) : (n.map f).kind = n.kind := by cases n <;> rfl

/-- Nodes of one shape have one kind. -/
theorem kind_of_shape_eq (h : n.shape = n'.shape) : n.kind = n'.kind := by
  rw [← kind_map (fun _ => ()) n, ← kind_map (fun _ => ()) n']
  exact congrArg kind h

/-- Two nodes of one shape are the sides of a node of pairs. -/
theorem exists_zip (h : n.shape = n'.shape) : ∃ z : Node (α × β), z.map Prod.fst = n ∧ z.map Prod.snd = n' := by
  have hlist {as : List α} {bs : List β} (h : as.map (fun _ => ()) = bs.map fun _ => ()) :
      ∃ zs : List (α × β), zs.map Prod.fst = as ∧ zs.map Prod.snd = bs := by
    have hlength : as.length = bs.length := by simpa using congrArg List.length h
    exact ⟨as.zip bs, List.map_fst_zip (Nat.le_of_eq hlength), List.map_snd_zip (Nat.le_of_eq hlength.symm)⟩
  have hoption {a : Option α} {b : Option β} (h : a.map (fun _ => ()) = b.map fun _ => ()) :
      ∃ z : Option (α × β), z.map Prod.fst = a ∧ z.map Prod.snd = b := by
    cases a <;> cases b <;> first | exact ⟨none, rfl, rfl⟩ | exact ⟨some (_, _), rfl, rfl⟩ | cases h
  have hkind := kind_of_shape_eq h
  cases n <;> cases n' <;> try cases hkind
  case block.block =>
    obtain ⟨zs, rfl, rfl⟩ := hlist (by simpa [shape] using h)
    exact ⟨.block zs, by simp, by simp⟩
  case call.call =>
    simp only [shape, map_call, call.injEq] at h
    obtain ⟨rfl, hitems⟩ := h
    obtain ⟨zs, rfl, rfl⟩ := hlist hitems
    exact ⟨.call _ zs, map_call .., map_call ..⟩
  case pack.pack =>
    obtain ⟨zs, rfl, rfl⟩ := hlist (by simpa [shape] using h)
    exact ⟨.pack zs, by simp, by simp⟩
  case loop.loop =>
    simp only [shape, map_loop, loop.injEq] at h
    obtain ⟨rfl, hstart, hcondition, hstep, -⟩ := h
    obtain ⟨s, rfl, rfl⟩ := hoption hstart
    obtain ⟨c, rfl, rfl⟩ := hoption hcondition
    obtain ⟨i, rfl, rfl⟩ := hoption hstep
    exact ⟨.loop _ s c i (_, _), map_loop .., map_loop ..⟩
  case declare.declare =>
    simp only [shape, map_declare, declare.injEq] at h
    obtain ⟨rfl, -, hstart⟩ := h
    obtain ⟨s, rfl, rfl⟩ := hoption hstart
    exact ⟨.declare _ (_, _) s, map_declare .., map_declare ..⟩
  case unpack.unpack =>
    simp only [shape, map_unpack, unpack.injEq] at h
    obtain ⟨-, -, hcolumn⟩ := h
    obtain ⟨c, rfl, rfl⟩ := hoption hcolumn
    exact ⟨.unpack (_, _) (_, _) c, map_unpack .., map_unpack ..⟩
  case conditional.conditional => exact ⟨.conditional (_, _) (_, _) (_, _), rfl, rfl⟩
  case binary.binary =>
    cases h
    exact ⟨.binary _ (_, _) (_, _), rfl, rfl⟩
  case unary.unary =>
    cases h
    exact ⟨.unary _ (_, _), rfl, rfl⟩
  case crement.crement =>
    cases h
    exact ⟨.crement _ _ (_, _), rfl, rfl⟩
  case assign.assign =>
    cases h
    exact ⟨.assign (_, _) (_, _) _, rfl, rfl⟩
  case cast.cast =>
    cases h
    exact ⟨.cast _ (_, _), rfl, rfl⟩
  case jump.jump =>
    cases h
    exact ⟨.jump _, rfl, rfl⟩
  case value.value =>
    cases h
    exact ⟨.value _, rfl, rfl⟩
  case localName.localName =>
    cases h
    exact ⟨.localName _, rfl, rfl⟩
  case field.field =>
    cases h
    exact ⟨.field _ _ _ _, rfl, rfl⟩
  case external.external =>
    cases h
    exact ⟨.external _ _, rfl, rfl⟩

/-- Two nodes of one shape with related children are the sides of a node of related pairs. -/
theorem exists_zip_of_forall {R : α → β → Prop} (hshape : n.shape = n'.shape)
    (h : ∀ c c', (c, c') ∈ n.children.zip n'.children → R c c') :
    ∃ z : Node (α × β), z.map Prod.fst = n ∧ z.map Prod.snd = n' ∧ ∀ p ∈ z.children, R p.1 p.2 := by
  obtain ⟨z, rfl, rfl⟩ := exists_zip hshape
  refine ⟨z, rfl, rfl, fun p hp => h p.1 p.2 ?_⟩
  rw [children_map, children_map, List.zip_map', List.mem_map]
  exact ⟨p, hp, rfl⟩

/-- Nodes that differ in their children alone, which are related one by one. -/
inductive Rel (R : α → β → Prop) : Node α → Node β → Prop
  | block {as bs} (h : List.Forall₂ R as bs) : Rel R (block as) (block bs)
  | conditional {a b c a' b' c'} (ha : R a a') (hb : R b b') (hc : R c c') : Rel R (conditional a b c) (conditional a' b' c')
  | loop {kind s c i b s' c' i' b'} (hs : Option.Rel R s s') (hc : Option.Rel R c c') (hi : Option.Rel R i i') (hb : R b b') :
      Rel R (loop kind s c i b) (loop kind s' c' i' b')
  | jump {word} : Rel R (jump word) (jump word)
  | declare {ty a s a' s'} (ha : R a a') (hs : Option.Rel R s s') : Rel R (declare ty a s) (declare ty a' s')
  | value {l} : Rel R (value l) (value l)
  | localName {name} : Rel R (localName name) (localName name)
  | field {name ty inferred writable} : Rel R (field name ty inferred writable) (field name ty inferred writable)
  | external {name ty} : Rel R (external name ty) (external name ty)
  | binary {op a b a' b'} (ha : R a a') (hb : R b b') : Rel R (binary op a b) (binary op a' b')
  | unary {op a a'} (ha : R a a') : Rel R (unary op a) (unary op a')
  | crement {op post a a'} (ha : R a a') : Rel R (crement op post a) (crement op post a')
  | assign {a b op a' b'} (ha : R a a') (hb : R b b') : Rel R (assign a b op) (assign a' b' op)
  | cast {ty a a'} (ha : R a a') : Rel R (cast ty a) (cast ty a')
  | call {name as bs} (h : List.Forall₂ R as bs) : Rel R (call name as) (call name bs)
  | pack {as bs} (h : List.Forall₂ R as bs) : Rel R (pack as) (pack bs)
  | unpack {a i c a' i' c'} (ha : R a a') (hi : R i i') (hc : Option.Rel R c c') : Rel R (unpack a i c) (unpack a' i' c')

/-- Nodes of one shape with related children. -/
theorem rel_of_shape_eq {R : α → β → Prop} (hshape : n.shape = n'.shape)
    (h : ∀ c c', (c, c') ∈ n.children.zip n'.children → R c c') : Rel R n n' := by
  obtain ⟨z, rfl, rfl, hz⟩ := exists_zip_of_forall hshape h
  have hlist {ps : List (α × β)} (h : ∀ p ∈ ps, R p.1 p.2) : List.Forall₂ R (ps.map Prod.fst) (ps.map Prod.snd) :=
    List.forall₂_map_left_iff.mpr (List.forall₂_map_right_iff.mpr (List.forall₂_same.mpr h))
  have hoption {p : Option (α × β)} (h : ∀ q ∈ p, R q.1 q.2) : Option.Rel R (p.map Prod.fst) (p.map Prod.snd) := by
    cases p with
    | none => exact .none
    | some q => exact .some (h q rfl)
  cases z with
  | block | call | pack =>
    simp only [map_block, map_call, map_pack]
    constructor
    exact hlist hz
  | loop =>
    simp only [children, List.forall_mem_append, List.forall_mem_singleton, Option.mem_toList] at hz
    rw [map_loop, map_loop]
    exact .loop (hoption hz.1.1.1) (hoption hz.1.1.2) (hoption hz.1.2) hz.2
  | declare =>
    simp only [children, List.forall_mem_cons, Option.mem_toList] at hz
    rw [map_declare, map_declare]
    exact .declare hz.1 (hoption hz.2)
  | unpack =>
    simp only [children, List.forall_mem_cons, Option.mem_toList] at hz
    rw [map_unpack, map_unpack]
    exact .unpack hz.1 hz.2.1 (hoption hz.2.2)
  | _ => constructor <;> exact hz _ (by simp)

/-- Replacing children depends only on what they are replaced by. -/
theorem map_congr {f g : α → β} (h : ∀ c ∈ n.children, f c = g c) : n.map f = n.map g := by
  cases n with
  | block items | call _ items | pack items =>
    have hitems : items.map f = items.map g := List.map_congr_left h
    simp [hitems]
  | loop kind start condition step body => cases start <;> cases condition <;> cases step <;> simp_all
  | declare ty name start => cases start <;> simp_all
  | unpack array index column => cases column <;> simp_all
  | conditional | binary | unary | crement | assign | cast => simp_all [map, mapM, Id.run, bind, pure]
  | jump | value | localName | field | external => rfl

/-- Replacing every child by itself changes nothing. -/
theorem map_eq_self {f : α → α} (h : ∀ c ∈ n.children, f c = c) : n.map f = n := by
  refine (map_congr h).trans ?_
  cases n with
  | block | call | pack | loop | declare | unpack => simp
  | _ => rfl

/-- A node is its shape and its children. -/
theorem eq_of_shape_eq {n' : Node α} (hshape : n.shape = n'.shape) (hchildren : n.children = n'.children) : n = n' := by
  obtain ⟨z, rfl, rfl⟩ := exists_zip hshape
  rw [children_map, children_map, List.map_inj_left] at hchildren
  exact map_congr hchildren

/-- The elements of a list go one after another into a step, which gives the elements of another. -/
inductive Threads (f : α → StateM σ β) : List α → σ → List β → σ → Prop
  | nil {s} : Threads f [] s [] s
  | cons {a as b bs s₁ s₂ s₃} (hhead : f a s₁ = (b, s₂)) (htail : Threads f as s₂ bs s₃) :
      Threads f (a :: as) s₁ (b :: bs) s₃

namespace Threads

variable {f : α → StateM σ β}

theorem append {as as' : List α} {bs bs' : List β} {s₁ s₂ s₃ : σ} (h : Threads f as s₁ bs s₂)
    (h' : Threads f as' s₂ bs' s₃) : Threads f (as ++ as') s₁ (bs ++ bs') s₃ := by
  induction h with
  | nil => exact h'
  | cons hhead _ ih => exact .cons hhead (ih h')

theorem single (f : α → StateM σ β) (a : α) (s : σ) : Threads f [a] s [(f a s).1] (f a s).2 := .cons rfl .nil

theorem mapM (f : α → StateM σ β) (as : List α) (s : σ) :
    Threads f as s (as.mapM f s).1 (as.mapM f s).2 := by
  induction as generalizing s with
  | nil => exact .nil
  | cons a as ih =>
    rw [List.mapM_cons]
    exact .cons rfl (ih _)

/-- Both lists have the same length. -/
theorem map_unit {as : List α} {bs : List β} {s s' : σ} (h : Threads f as s bs s') :
    bs.map (fun _ => ()) = as.map fun _ => () := by
  induction h with
  | nil => rfl
  | cons _ _ ih => simp [ih]

/-- An element that may be absent. -/
theorem option (f : α → StateM σ β) (a : Option α) (s : σ) :
    Threads f a.toList s (a.mapM f s).1.toList (a.mapM f s).2 := by
  cases a with
  | none => exact .nil
  | some a => exact .single f a s

end Threads

/-- Replacing children by a step threads them through it, and keeps the shape. -/
theorem mapM_threads (f : α → StateM σ β) (n : Node α) (s : σ) :
    (n.mapM f s).1.shape = n.shape ∧ Threads f n.children s (n.mapM f s).1.children (n.mapM f s).2 := by
  cases n with
  | block items =>
    have h := Threads.mapM f items s
    exact ⟨by rw [shape, shape, map_block]; exact (map_block _ _).trans (congrArg block h.map_unit), h⟩
  | call name items =>
    have h := Threads.mapM f items s
    exact ⟨by rw [shape, shape, map_call]; exact (map_call _ _ _).trans (congrArg (call name) h.map_unit), h⟩
  | pack items =>
    have h := Threads.mapM f items s
    exact ⟨by rw [shape, shape, map_pack]; exact (map_pack _ _).trans (congrArg pack h.map_unit), h⟩
  | loop kind start condition step body =>
    refine ⟨by cases start <;> cases condition <;> cases step <;> rfl, ?_⟩
    exact (((Threads.option f start s).append (.option f condition _)).append (.option f step _)).append (.single f body _)
  | declare ty name start =>
    refine ⟨by cases start <;> rfl, ?_⟩
    exact .cons rfl (.option f start _)
  | unpack array index column =>
    refine ⟨by cases column <;> rfl, ?_⟩
    exact .cons rfl (.cons rfl (.option f column _))
  | conditional => exact ⟨rfl, .cons rfl (.cons rfl (.single f _ _))⟩
  | binary | assign => exact ⟨rfl, .cons rfl (.single f _ _)⟩
  | unary | crement | cast => exact ⟨rfl, .single f _ _⟩
  | jump | value | localName | field | external => exact ⟨rfl, .nil⟩

end Elementwise.Node
