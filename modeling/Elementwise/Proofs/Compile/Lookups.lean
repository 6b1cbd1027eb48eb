import Elementwise.Compile.External
import Elementwise.Proofs.Diagnostic.Sink
import Elementwise.Proofs.Diagnostic.SourceMap
import Elementwise.Proofs.Tree.Segments

/-!
# Lookups are replaced and nothing else

The calls that look up values of the host are found in one traversal, and replaced one after another in a tree
that changes meanwhile. A lookup has only a literal below it, so no other call that was found is freed with it,
and every replacement finds its node where it was. What comes out is the program with a value in the place of
every lookup, a report for every other call of these functions, and nothing that could be replaced once more.
-/

namespace Elementwise

/-- A term in which lookups became values of the host, with names of their own. Every other node is the same node,
by its own name, over children that were treated likewise. -/
inductive Term.Lowered (name : NodeId → NodeId) : Term → Term → Prop
  | lookup {id arg function text ty} (hty : Tree.externalTy? function = some ty) :
      Lowered name (.node id (.call function [.node arg (.value (.string text))])) (.node (name id) (.external text ty))
  | node {id content content'}
      (hother : ∀ function ty arg text, Tree.externalTy? function = some ty →
        content ≠ .call function [.node arg (.value (.string text))])
      (hshape : content.shape = content'.shape)
      (h : ∀ c c', (c, c') ∈ content.children.zip content'.children → Lowered name c c') :
      Lowered name (.node id content) (.node id content')

namespace Node

variable {α β : Type} {f : α → β} {n : Node α}

/-- What becomes a call when its children are replaced is a call. -/
theorem map_eq_call {function : String} {args : List β} (h : n.map f = .call function args) :
    ∃ args', n = .call function args' ∧ args'.map f = args := by
  cases n with
  | call name args' =>
    rw [map_call] at h
    obtain ⟨rfl, hargs⟩ := Node.call.inj h
    exact ⟨args', rfl, hargs⟩
  | _ => simp [Node.map, Node.mapM, Id.run, bind, pure] at h

/-- What becomes a literal when its children are replaced is this literal. -/
theorem map_eq_value {literal : Literal} (h : n.map f = .value literal) : n = .value literal := by
  cases n with
  | value _ => exact congrArg Node.value (Node.value.inj h)
  | _ => simp [Node.map, Node.mapM, Id.run, bind, pure] at h

end Node

namespace Tree

variable {s s' t t' : Tree} {c p x y : NodeId} {n : Node NodeId} {text : String} {ty : Ty} {e : ExternalCall}
  {done : List NodeId} {name : NodeId → NodeId}

/-! ## The calls of a tree -/

/-- A node is a call that looks up a value of the host, of a type, by its literal name. -/
def LooksUp (t : Tree) (x : NodeId) (name : String) (ty : Ty) : Prop :=
  ∃ function arg, t.get? x = some (.call function [arg]) ∧ t.get? arg = some (.value (.string name)) ∧
    externalTy? function = some ty

/-- A node is a call that looks up a value of the host by its literal name. -/
def IsLookup (t : Tree) (x : NodeId) : Prop := ∃ text ty, t.LooksUp x text ty

/-- A node is a call of a function that looks up values of the host, of anything else than one string literal. -/
def Rejected (t : Tree) (x : NodeId) : Prop :=
  (∃ function args ty, t.get? x = some (.call function args) ∧ externalTy? function = some ty) ∧ ¬t.IsLookup x

/-- A lookup is found as a call with a name. -/
theorem LooksUp.externalCall? (h : t.LooksUp x text ty) : t.externalCall? x = some ⟨x, ty, some text⟩ := by
  obtain ⟨function, arg, hcall, harg, hty⟩ := h
  simp [Tree.externalCall?, literalText?, hcall, harg, hty]

/-- A call that is found is of a function that looks up values of the host. -/
theorem exists_call_of_externalCall? (h : t.externalCall? x = some e) :
    e.id = x ∧ ∃ function args, t.get? x = some (.call function args) ∧ externalTy? function = some e.ty := by
  unfold Tree.externalCall? at h
  split at h
  · next function args hget =>
    obtain ⟨ty, hty, rfl⟩ := Option.map_eq_some_iff.mp h
    exact ⟨rfl, function, args, hget, hty⟩
  · cases h

/-- A call that is found with a name is a lookup. -/
theorem looksUp_of_externalCall? (h : t.externalCall? x = some e) (hname : e.name = some text) : t.LooksUp x text e.ty := by
  unfold Tree.externalCall? at h
  split at h
  · next function args hget =>
    obtain ⟨ty, hty, rfl⟩ := Option.map_eq_some_iff.mp h
    rcases args with _ | ⟨arg, _ | ⟨b, rest⟩⟩
    · cases hname
    · refine ⟨function, arg, hget, ?_, hty⟩
      change t.literalText? arg = some text at hname
      unfold literalText? at hname
      split at hname
      · next s hs => rw [hs, Option.some.inj hname]
      · cases hname
    · cases hname
  · cases h

/-- The lookups are the calls that are found with a name. -/
theorem any_isSome_externalCall? : (t.externalCall? x).any (·.name.isSome) = true ↔ t.IsLookup x := by
  rw [Option.any_eq_true]
  constructor
  · rintro ⟨e, he, hname⟩
    obtain ⟨text, htext⟩ := Option.isSome_iff_exists.mp hname
    exact ⟨text, e.ty, looksUp_of_externalCall? he htext⟩
  · rintro ⟨text, ty, h⟩
    exact ⟨_, h.externalCall?, rfl⟩

/-- The rejected calls are those that are found without a name. -/
theorem any_isNone_externalCall? : (t.externalCall? x).any (·.name.isNone) = true ↔ t.Rejected x := by
  rw [Option.any_eq_true]
  constructor
  · rintro ⟨e, he, hname⟩
    obtain ⟨-, function, args, hcall, hty⟩ := exists_call_of_externalCall? he
    refine ⟨⟨function, args, e.ty, hcall, hty⟩, ?_⟩
    rintro ⟨text, ty, h⟩
    obtain rfl := Option.some.inj (he.symm.trans h.externalCall?)
    cases hname
  · rintro ⟨⟨function, args, ty, hcall, hty⟩, hlookup⟩
    obtain ⟨e, he⟩ : ∃ e, t.externalCall? x = some e := by simp [Tree.externalCall?, hcall, hty]
    refine ⟨e, he, ?_⟩
    cases hname : e.name with
    | none => rfl
    | some text => exact absurd ⟨text, e.ty, looksUp_of_externalCall? he hname⟩ hlookup

instance (t : Tree) (x : NodeId) : Decidable (t.IsLookup x) := decidable_of_iff _ any_isSome_externalCall?

instance (t : Tree) (x : NodeId) : Decidable (t.Rejected x) := decidable_of_iff _ any_isNone_externalCall?

/-- The calls that pass a test, by name, are the nodes of the preorder at which one is found. -/
theorem ids_filter_externalCalls (test : ExternalCall → Bool) :
    (t.externalCalls.filter test).map ExternalCall.id = t.preorder.filter fun x => (t.externalCall? x).any test := by
  unfold externalCalls
  induction t.preorder with
  | nil => rfl
  | cons x rest ih =>
    rw [List.filterMap_cons, List.filter_cons]
    cases he : t.externalCall? x with
    | none => exact ih
    | some e =>
      by_cases htest : test e = true
      · simp [htest, ih, (exists_call_of_externalCall? he).1]
      · simp [htest, ih]

/-- A node is a lookup if its term is one. -/
theorem Linked.looksUp_iff_term (h : t.Linked) (hx : t.Grounded x) (hget : t.get? x = some n) :
    t.LooksUp x text ty ↔ ∃ function arg, n.map t.term = .call function [.node arg (.value (.string text))] ∧
      externalTy? function = some ty := by
  constructor
  · rintro ⟨function, arg, hcall, harg, hty⟩
    obtain rfl := Option.some.inj (hcall.symm.trans hget)
    have howned := h.owns x _ hget arg (by simp)
    refine ⟨function, arg, ?_, hty⟩
    rw [Node.map_call, List.map_singleton, h.term_eq (.of_parent? howned hx) harg]
    rfl
  · rintro ⟨function, arg, hcontent, hty⟩
    obtain ⟨args, rfl, hargs⟩ := Node.map_eq_call hcontent
    obtain ⟨c, rfl, hterm⟩ := List.map_eq_singleton_iff.mp hargs
    have howned := h.owns x _ hget c (by simp)
    obtain ⟨m, hm⟩ := contains_iff.mp (contains_of_parent? howned)
    rw [h.term_eq (.of_parent? howned hx) hm] at hterm
    obtain ⟨-, hvalue⟩ := Term.node.inj hterm
    obtain rfl := Node.map_eq_value hvalue
    exact ⟨function, c, hget, hm, hty⟩

/-- Below a lookup is its literal, and nothing else. -/
theorem LooksUp.get?_child (h : t.LooksUp x text ty) (hlinked : t.Linked) (hc : t.parent? c = some x) :
    t.get? c = some (.value (.string text)) := by
  obtain ⟨function, arg, hcall, harg, -⟩ := h
  obtain rfl : c = arg := by simpa using (hlinked.mem_children_iff hcall).mpr hc
  exact harg

/-- What is below a lookup is the lookup or its literal. -/
theorem LooksUp.eq_or_parent? (h : t.LooksUp x text ty) (hlinked : t.Linked) (hy : t.Below y x) :
    y = x ∨ t.parent? y = some x := by
  rcases Below.iff_child.mp hy with rfl | ⟨c, hc, hyc⟩
  · exact .inl rfl
  · rcases (hlinked.below_iff (h.get?_child hlinked hc)).mp hyc with rfl | ⟨d, hd, -⟩
    · exact .inr hc
    · simp at hd

/-! ## What a replacement does to an arena -/

/-- The name of a node after another was put in its place. -/
def swap (node new x : NodeId) : NodeId := if x = node then new else x

namespace Linked

/-- A node that is left after a replacement was there, over the replaced name. -/
theorem get?_replace (h : t.Linked) {node r : NodeId} (hok : t.replace node r = .ok t') (hget : t'.get? x = some n) :
    ∃ m, t.get? x = some m ∧ n = m.map (swap node r) := by
  obtain ⟨hr, p, owner, hp, howner, -, rfl⟩ := replace_eq_ok hok
  have hlink := h.relinks_swap hp howner hr
  obtain ⟨-, hget⟩ := (hlink.clears_free h).of_get? hget
  rw [hlink.get?] at hget
  by_cases hx : x = p
  · rw [if_pos hx] at hget
    rw [hx]
    exact ⟨owner, howner, (Option.some.inj hget).symm⟩
  · rw [if_neg hx] at hget
    -- only its owner lists the node
    have hself : n.map (swap node r) = n := by
      refine Node.map_eq_self fun c hc => if_neg fun hnode : c = node => hx ?_
      exact Option.some.inj ((h.owns x n hget c hc).symm.trans (hnode ▸ hp))
    exact ⟨n, hget, hself.symm⟩

/-- What a replacement leaves is linked under the same root, and has no fewer names. -/
theorem replace_keeps (h : t.Linked) (ha : t.Anchored) {node r : NodeId} (hok : t.replace node r = .ok t') :
    t'.Linked ∧ t'.Anchored ∧ t.slots.size ≤ t'.slots.size ∧ t'.id = t.id ∧ t'.root = t.root := by
  obtain ⟨p, -, hs⟩ := h.splices_replace hok
  obtain ⟨n, t₁, hlink, -, hclears⟩ := hs.relinks
  exact ⟨hs.linked h, hs.anchored ha, hclears.size ▸ hlink.size, hclears.id.trans hlink.id,
    hclears.root.trans hlink.root⟩

end Linked

/-! ## Some lookups have been replaced -/

/-- A node is in the program, and not the literal of a lookup that was replaced. -/
def Stands (t : Tree) (done : List NodeId) (x : NodeId) : Prop :=
  t.Below x t.root ∧ ∀ p, t.parent? x = some p → p ∉ done

theorem Anchored.stands (h : t.Anchored) : t.Stands done t.root := ⟨.refl, by simp [h.free]⟩

/-- What is owned by a node that stands in the program and was not replaced stands there too. -/
theorem Stands.child (h : t.Stands done x) (hdone : x ∉ done) (hc : t.parent? c = some x) : t.Stands done c := by
  refine ⟨h.1.head hc, fun p hp => ?_⟩
  obtain rfl : x = p := Option.some.inj (hc.symm.trans hp)
  exact hdone

/-- Names for the values that replace some lookups of a tree: names that the tree did not have, below a bound. -/
structure Naming (t : Tree) (done : List NodeId) (name : NodeId → NodeId) (bound : Nat) : Prop where
  size : t.slots.size ≤ bound
  lookup : ∀ x ∈ done, t.IsLookup x
  same : ∀ x ∉ done, name x = x
  fresh : ∀ x ∈ done, t.slots.size ≤ name x ∧ name x < bound
  injective : ∀ x ∈ done, ∀ y ∈ done, name x = name y → x = y

namespace Naming

variable {bound bound' : Nat}

theorem mono (h : t.Naming done name bound) (hle : bound ≤ bound') : t.Naming done name bound' where
  size := Nat.le_trans h.size hle
  lookup := h.lookup
  same := h.same
  fresh x hx := ⟨(h.fresh x hx).1, Nat.lt_of_lt_of_le (h.fresh x hx).2 hle⟩
  injective := h.injective

theorem name_ne (h : t.Naming done name bound) (hy : y ∈ done) (hx : x < t.slots.size) : name y ≠ x :=
  Nat.ne_of_gt (Nat.lt_of_lt_of_le hx (h.fresh y hy).1)

theorem swap_name (h : t.Naming done name bound) (hy : y ∈ done) (hx : x < t.slots.size) (r : NodeId) :
    swap x r (name y) = name y := if_neg (h.name_ne hy hx)

/-- The bound is the name for one more value. -/
theorem concat (h : t.Naming done name bound) (hx : x < t.slots.size) (hdone : x ∉ done) (hlookup : t.IsLookup x)
    (hlt : bound < bound') : t.Naming (done ++ [x]) (swap x bound ∘ name) bound' := by
  have hnew : swap x bound (name x) = bound := if_pos (h.same x hdone)
  have hne (y : NodeId) (hy : y ∈ done) : name y ≠ bound := Nat.ne_of_lt (h.fresh y hy).2
  refine ⟨Nat.le_trans h.size (Nat.le_of_lt hlt), fun y hy => ?_, fun y hy => ?_, fun y hy => ?_, fun y hy z hz heq => ?_⟩
  · rw [List.mem_append, List.mem_singleton] at hy
    exact hy.elim (h.lookup y) fun heq => heq ▸ hlookup
  · rw [List.mem_append, List.mem_singleton, not_or] at hy
    rw [Function.comp_apply, h.same y hy.1]
    exact if_neg hy.2
  · rw [List.mem_append, List.mem_singleton] at hy
    rcases hy with hy | rfl
    · rw [Function.comp_apply, h.swap_name hy hx]
      exact ⟨(h.fresh y hy).1, Nat.lt_trans (h.fresh y hy).2 hlt⟩
    · rw [Function.comp_apply, hnew]
      exact ⟨h.size, hlt⟩
  · rw [List.mem_append, List.mem_singleton] at hy hz
    simp only [Function.comp_apply] at heq
    rcases hy with hy | rfl <;> rcases hz with hz | rfl
    · rw [h.swap_name hy hx, h.swap_name hz hx] at heq
      exact h.injective y hy z hz heq
    · rw [h.swap_name hy hx, hnew] at heq
      exact absurd heq (hne y hy)
    · rw [h.swap_name hz hx, hnew] at heq
      exact absurd heq.symm (hne z hz)
    · rfl

end Naming

/-- A tree in which some lookups of another were replaced. The values that replace them have new names; every other
node in the program is the same, over children by their names now. -/
structure Substituted (t : Tree) (done : List NodeId) (name : NodeId → NodeId) (s : Tree) : Prop extends
    Naming t done name s.slots.size where
  apart : t.root ∉ done
  linked : s.Linked
  anchored : s.Anchored
  id : s.id = t.id
  root : s.root = t.root
  kept : ∀ x, t.Stands done x → x ∉ done → s.get? x = (t.get? x).map (Node.map name)
  value : ∀ x ∈ done, ∀ text ty, t.LooksUp x text ty → s.get? (name x) = some (.external text ty)

/-- Nothing has been replaced. -/
theorem Linked.substituted (h : t.Linked) (ha : t.Anchored) : t.Substituted [] (fun x => x) t where
  apart := by simp
  linked := h
  anchored := ha
  id := rfl
  root := rfl
  size := Nat.le_refl _
  lookup := by simp
  same _ _ := rfl
  fresh := by simp
  injective := by simp
  kept x _ _ := by
    cases t.get? x with
    | none => rfl
    | some n => exact congrArg some (Node.map_eq_self fun _ _ => rfl).symm
  value := by simp

namespace Substituted

section

variable (h : t.Substituted done name s)

include h

/-- A root that is a block still is one. -/
theorem rooted (hroot : t.Rooted) : s.Rooted := by
  obtain ⟨statements, hblock⟩ := hroot.block
  refine ⟨⟨statements.map name, ?_⟩, h.anchored.free⟩
  rw [h.root, h.kept t.root hroot.anchored.stands h.apart, hblock]
  exact congrArg some (Node.map_block ..)

/-- The owner of a node that stands in the program stands there too, and is still there. -/
theorem stands_owner (ht : t.Linked) (ha : t.Anchored) (hx : t.Stands done x)
    (hp : t.parent? x = some p) : t.Stands done p ∧ p ∉ done := by
  refine ⟨⟨?_, fun q hq hdone => ?_⟩, hx.2 p hp⟩
  · exact ha.below_owner hx.1 hp
  · -- a literal owns nothing
    obtain ⟨text, ty, hlooks⟩ := h.lookup q hdone
    have hmem := (ht.mem_children_iff (hlooks.get?_child ht hq)).mpr hp
    simp at hmem

/-- A node that stands in the program is now owned by the owner that it had. -/
theorem parent?_name (ht : t.Linked) (ha : t.Anchored) (hx : t.Stands done x)
    (hp : t.parent? x = some p) : s.parent? (name x) = some p := by
  obtain ⟨hstands, hdone⟩ := h.stands_owner ht ha hx hp
  obtain ⟨n, hn, hmem⟩ := ht.listed x p hp
  have hget := h.kept p hstands hdone
  rw [hn] at hget
  refine h.linked.owns p _ hget (name x) ?_
  rw [Node.children_map]
  exact List.mem_map_of_mem hmem

/-- A node that stands in the program is now below the root, by its name now. -/
theorem below_root (ht : t.Linked) (ha : t.Anchored) (hx : t.Stands done x) : s.Below (name x) s.root := by
  obtain ⟨hbelow, hdone⟩ := hx
  induction hbelow using Relation.ReflTransGen.head_induction_on with
  | refl =>
    rw [h.same _ h.apart, h.root]
    exact .refl
  | @head x p hp hbelow ih =>
    have hx : t.Stands done x := ⟨.head hp hbelow, hdone⟩
    obtain ⟨hstands, hp'⟩ := h.stands_owner ht ha hx hp
    have hup := ih hstands.2
    rw [h.same p hp'] at hup
    exact hup.head (h.parent?_name ht ha hx hp)

/-- Different nodes that stand in the program have different names now. -/
theorem injOn (ha : t.Anchored) : Set.InjOn name {x | t.Stands done x} := by
  have hlt {x : NodeId} (hx : t.Stands done x) : x < t.slots.size := lt_size_of_contains (hx.1.contains ha.live)
  intro x hx y hy heq
  by_cases hxdone : x ∈ done <;> by_cases hydone : y ∈ done
  · exact h.injective x hxdone y hydone heq
  · exact absurd (heq.trans (h.same y hydone)) (h.name_ne hxdone (hlt hy))
  · exact absurd (heq.symm.trans (h.same x hxdone)) (h.name_ne hydone (hlt hx))
  · rwa [h.same x hxdone, h.same y hydone] at heq

/-- What is below the root now is the name of a node that stands in the program. -/
theorem exists_stands (ht : t.Linked) (ha : t.Anchored) (hy : s.Below y s.root) :
    ∃ x, t.Stands done x ∧ name x = y := by
  induction hy using Relation.ReflTransGen.head_induction_on with
  | refl => exact ⟨t.root, ha.stands, by rw [h.same _ h.apart, h.root]⟩
  | @head y q hq _ ih =>
    obtain ⟨p, hp, rfl⟩ := ih
    obtain ⟨m, hm, hmem⟩ := h.linked.listed y _ hq
    by_cases hdone : p ∈ done
    · -- a value owns nothing
      obtain ⟨text, ty, hlooks⟩ := h.lookup p hdone
      obtain rfl := Option.some.inj (hm.symm.trans (h.value p hdone text ty hlooks))
      simp at hmem
    · rw [h.same p hdone, h.kept p hp hdone, Option.map_eq_some_iff] at hm
      obtain ⟨n, hn, rfl⟩ := hm
      rw [Node.children_map] at hmem
      obtain ⟨x, hx, rfl⟩ := List.mem_map.mp hmem
      exact ⟨x, hp.child hdone (ht.owns p n hn x hx), rfl⟩

/-- A lookup that is left in the program is a lookup now. -/
theorem looksUp (ht : t.Linked) (hx : t.Below x t.root) (hdone : x ∉ done)
    (hlooks : t.LooksUp x text ty) : t.Stands done x ∧ s.LooksUp x text ty := by
  have hstands : t.Stands done x := by
    refine ⟨hx, fun p hp hpdone => ?_⟩
    obtain ⟨text', ty', hlooks'⟩ := h.lookup p hpdone
    obtain ⟨function, arg, hcall, -⟩ := hlooks
    exact absurd (hcall.symm.trans (hlooks'.get?_child ht hp)) (by simp)
  refine ⟨hstands, ?_⟩
  obtain ⟨function, arg, hcall, harg, hty⟩ := hlooks
  have howned : t.parent? arg = some x := ht.owns x _ hcall arg (by simp)
  have hargDone : arg ∉ done := by
    intro hdone
    obtain ⟨text', ty', function', arg', hcall', -⟩ := h.lookup arg hdone
    exact absurd (harg.symm.trans hcall') (by simp)
  have hargStands := hstands.child hdone howned
  refine ⟨function, arg, ?_, ?_, hty⟩
  · rw [h.kept x hstands hdone, hcall]
    simp [h.same arg hargDone]
  · rw [h.kept arg hargStands hargDone, harg]
    rfl

/-- A new node that is not yet in the program. -/
theorem alloc (ha : t.Anchored) (text : String) (ty : Ty) :
    t.Substituted done name (s.alloc (.external text ty)).2 := by
  have hlink := h.linked.relinks_alloc (n := .external text ty) .nil (by simp)
  have hget {y : NodeId} (hy : y < s.slots.size) : (s.alloc (.external text ty)).2.get? y = s.get? y := by
    rw [get?_alloc, if_neg (Nat.ne_of_lt hy)]
  refine ⟨h.mono hlink.size, h.apart, hlink.linked h.linked, hlink.anchored h.anchored (by simp),
    hlink.id.trans h.id, hlink.root.trans h.root, fun x hx hdone => ?_, fun x hx text' ty' hlooks => ?_⟩
  · have hlt := lt_size_of_contains (hx.1.contains ha.live)
    rw [hget (Nat.lt_of_lt_of_le hlt h.size), h.kept x hx hdone]
  · rw [hget (h.fresh x hx).2, h.value x hx text' ty' hlooks]

/-- A new node is detached. -/
theorem isDetached_alloc (text : String) (ty : Ty) :
    (s.alloc (.external text ty)).2.isDetached s.slots.size = true := by
  refine isDetached_iff.mpr ⟨?_, ?_, ?_⟩
  · rw [root_alloc]
    exact Nat.ne_of_gt (lt_size_of_contains h.anchored.live)
  · exact contains_iff.mpr ⟨_, (get?_alloc _).trans (if_pos rfl)⟩
  · rw [parent?_alloc, if_neg (by simp)]
    cases hp : s.parent? s.slots.size with
    | none => rfl
    | some p => exact absurd (lt_size_of_contains (contains_of_parent? hp)) (Nat.lt_irrefl _)

end

/-- Replacing a lookup by a detached node leaves every node but the lookup and its literal, over children by their
names now. -/
theorem get?_replace_lookup {r : NodeId} (hs : s.Linked) (hok : s.replace x r = .ok s') (hx : s.Below x s.root)
    (ha : s.Anchored) (hlooks : s.LooksUp x text ty) (hget : s.get? y = some n) (hne : y ≠ x)
    (hchild : s.parent? y ≠ some x) : s'.get? y = some (n.map (swap x r)) := by
  obtain ⟨-, p, -, hp, -⟩ := replace_eq_ok hok
  obtain ⟨m, m', he, -⟩ := hs.exchanges_replace hok hp (ha.grounded.below (ha.below_owner hx hp))
  have hapart : ∀ z ∈ [x], ¬s.Below y z := by
    intro z hz hyz
    obtain rfl := List.mem_singleton.mp hz
    exact (hlooks.eq_or_parent? hs hyz).elim hne hchild
  have hlive : ∃ k, s'.get? y = some k := by
    by_cases hyp : y = p
    · exact ⟨m', hyp ▸ he.now⟩
    · exact ⟨n, (he.kept y hyp hapart).trans hget⟩
  obtain ⟨k, hk⟩ := hlive
  obtain ⟨l, hl, rfl⟩ := hs.get?_replace hok hk
  obtain rfl := Option.some.inj (hl.symm.trans hget)
  exact hk

section

variable (h : t.Substituted done name s) (ht : t.Linked) (ha : t.Anchored)

include h ht ha

/-- A node that stands in the program without a lookup is not the literal of this lookup now. -/
theorem parent?_ne (hy : t.Stands (done ++ [x]) y) (hdone : y ∉ done) : s.parent? y ≠ some x := by
  have hstands : t.Stands done y := ⟨hy.1, fun p hp hp' => hy.2 p hp (List.mem_append_left _ hp')⟩
  intro hyx
  rcases Relation.ReflTransGen.cases_head hy.1 with rfl | ⟨p, hp, -⟩
  · rw [← h.root, h.anchored.free] at hyx
    cases hyx
  · have hyp := h.parent?_name ht ha hstands hp
    rw [h.same y hdone, hyx] at hyp
    exact hy.2 p hp (by simp [Option.some.inj hyp])

/-- The next lookup is replaced. -/
theorem replace (hx : t.Below x t.root) (hroot : x ≠ t.root) (hdone : x ∉ done) (hlooks : t.LooksUp x text ty) :
    ∃ s', (s.alloc (.external text ty)).2.replace x s.slots.size = .ok s' ∧
      t.Substituted (done ++ [x]) (swap x s.slots.size ∘ name) s' := by
  have hu := h.alloc ha text ty
  have hr := h.isDetached_alloc text ty
  have hrget : (s.alloc (.external text ty)).2.get? s.slots.size = some (.external text ty) :=
    (get?_alloc _).trans (if_pos rfl)
  have hrlt : s.slots.size < (s.alloc (.external text ty)).2.slots.size := by
    rw [size_alloc]
    exact Nat.lt_succ_self _
  generalize (s.alloc (.external text ty)).2 = u at *
  obtain ⟨hstands, hulooks⟩ := hu.looksUp ht hx hdone hlooks
  have hxlt : x < t.slots.size := lt_size_of_contains (hx.contains ha.live)
  have hname : name x = x := h.same x hdone
  -- the lookup is where it was, so that it is replaced
  obtain ⟨p, hp⟩ : ∃ p, t.parent? x = some p := by
    rcases Relation.ReflTransGen.cases_head hx with rfl | ⟨p, hp, -⟩
    · exact absurd rfl hroot
    · exact ⟨p, hp⟩
  have hubelow : u.Below x u.root := hname ▸ hu.below_root ht ha hstands
  obtain ⟨s', hok⟩ := hu.linked.exists_replace (hname ▸ hu.parent?_name ht ha hstands hp) hr
  obtain ⟨hlinked, hanchored, hsize, hid, hsroot⟩ := hu.linked.replace_keeps hu.anchored hok
  have hget {y : NodeId} {n : Node NodeId} := get?_replace_lookup (y := y) (n := n) hu.linked hok hubelow hu.anchored hulooks
  refine ⟨s', hok, h.concat hxlt hdone ⟨text, ty, hlooks⟩ (Nat.lt_of_lt_of_le hrlt hsize), ?_, hlinked, hanchored,
    hid.trans hu.id, hsroot.trans hu.root, fun y hy hydone => ?_, fun y hy text' ty' hlooks' => ?_⟩
  · simp [h.apart, Ne.symm hroot]
  · rw [List.mem_append, List.mem_singleton, not_or] at hydone
    obtain ⟨n, hn⟩ := contains_iff.mp (hy.1.contains ha.live)
    have huget := hu.kept y ⟨hy.1, fun q hq hq' => hy.2 q hq (List.mem_append_left _ hq')⟩ hydone.1
    rw [hn] at huget ⊢
    rw [hget huget hydone.2 (hu.parent?_ne ht ha hy hydone.1), Node.map_map]
    rfl
  · rw [List.mem_append, List.mem_singleton] at hy
    rcases hy with hy | rfl
    · have hyget := hu.value y hy text' ty' hlooks'
      rw [Function.comp_apply, h.swap_name hy hxlt, hget hyget (h.name_ne hy hxlt) fun hyx => ?_]
      · rfl
      · exact absurd (hyget.symm.trans (hulooks.get?_child hu.linked hyx)) (by simp)
    · have heq := Option.some.inj (hlooks.externalCall?.symm.trans hlooks'.externalCall?)
      simp only [ExternalCall.mk.injEq, Option.some.injEq, true_and] at heq
      obtain ⟨rfl, rfl⟩ := heq
      have hne : s.slots.size ≠ y := Nat.ne_of_gt (Nat.lt_of_lt_of_le hxlt h.size)
      rw [Function.comp_apply, hname, swap, if_pos rfl, hget hrget hne fun hrx => ?_]
      · rfl
      · exact absurd ((isDetached_iff.mp hr).2.2.symm.trans hrx) (by simp)

/-- When every lookup of the program was replaced, the program is the lowered program. -/
theorem lowered (hall : ∀ x, t.Below x t.root → t.IsLookup x → x ∈ done) : Term.Lowered name t.program s.program := by
  have hterm : Term.Lowered name (t.term t.root) (s.term (name t.root)) := by
    refine ht.grounded_induction (P := fun x => t.Stands done x → Term.Lowered name (t.term x) (s.term (name x)))
      (fun x n hget hx ih hstands => ?_) ha.grounded ha.live ha.stands
    have hground : s.Grounded (name x) := h.anchored.grounded.below (h.below_root ht ha hstands)
    by_cases hdone : x ∈ done
    · obtain ⟨text, ty, hlooks⟩ := h.lookup x hdone
      obtain ⟨function, arg, hcontent, hty⟩ := (ht.looksUp_iff_term hx hget).mp hlooks
      rw [h.linked.term_eq hground (h.value x hdone text ty hlooks), ht.term_eq hx hget, hcontent]
      exact .lookup hty
    · rw [h.same x hdone] at hground ⊢
      have hget' := h.kept x hstands hdone
      rw [hget] at hget'
      rw [ht.term_eq hx hget, h.linked.term_eq hground hget', Node.map_map]
      refine .node (fun function ty arg text hty heq => hdone (hall x hstands.1 ?_)) (by simp) fun c c' hc => ?_
      · exact ⟨text, ty, (ht.looksUp_iff_term hx hget).mpr ⟨function, arg, heq, hty⟩⟩
      · rw [Node.children_map, Node.children_map, List.zip_map'] at hc
        obtain ⟨d, hd, heq⟩ := List.mem_map.mp hc
        obtain ⟨rfl, rfl⟩ := Prod.mk.inj heq
        exact ih d hd (hstands.child hdone (ht.owns x n hget d hd))
  rw [h.same _ h.apart] at hterm
  rwa [program, program, h.root]

/-- When every lookup of the program was replaced, none is left. -/
theorem not_isLookup
    (hall : ∀ x, t.Below x t.root → t.IsLookup x → x ∈ done) (hy : s.Below y s.root) : ¬s.IsLookup y := by
  rintro ⟨text, ty, function, arg, hcall, harg, hty⟩
  obtain ⟨x, hx, rfl⟩ := h.exists_stands ht ha hy
  by_cases hdone : x ∈ done
  · obtain ⟨text', ty', hlooks⟩ := h.lookup x hdone
    exact absurd (hcall.symm.trans (h.value x hdone text' ty' hlooks)) (by simp)
  · -- the node was a call before, and its argument was the literal or a lookup
    rw [h.same x hdone, h.kept x hx hdone, Option.map_eq_some_iff] at hcall
    obtain ⟨n, hn, hcall⟩ := hcall
    obtain ⟨args, rfl, hargs⟩ := Node.map_eq_call hcall
    obtain ⟨c, rfl, rfl⟩ := List.map_eq_singleton_iff.mp hargs
    have hstands := hx.child hdone (ht.owns x _ hn c (by simp))
    by_cases hcdone : c ∈ done
    · obtain ⟨text', ty', hlooks⟩ := h.lookup c hcdone
      exact absurd (harg.symm.trans (h.value c hcdone text' ty' hlooks)) (by simp)
    · rw [h.same c hcdone, h.kept c hstands hcdone, Option.map_eq_some_iff] at harg
      obtain ⟨m, hm, hvalue⟩ := harg
      obtain rfl := Node.map_eq_value hvalue
      exact hdone (hall x hx.1 ⟨text, ty, function, c, hn, hm, hty⟩)

end

end Substituted

end Tree

namespace Lowering

open Elementwise.Tree

variable {t t' : Tree} {map : SourceMap} {sink : Sink} {l : Lowering} {e : ExternalCall} {calls rest : List ExternalCall}
  {text : String}

/-! ## One call after another -/

/-- The error for a call that does not look up one string literal. -/
def rejection (span : Option Span) : Diagnostic :=
  { Diagnostic.error .semantic "external lookups take one string literal argument" span with
    help := some "write external(\"name\") or externalv(\"name\")" }

/-- The error for one node, at the span of the node if the map is one of its tree. -/
def Reports (t : Tree) (map : SourceMap) (x : NodeId) (d : Diagnostic) : Prop :=
  ∃ span, d = rejection span ∧ (map.tree = t.id → span = map.get? x)

/-- The calls that are lookups. -/
def lookups (calls : List ExternalCall) : List NodeId := (calls.filter (·.name.isSome)).map ExternalCall.id

/-- The calls that are not. -/
def rejected (calls : List ExternalCall) : List NodeId := (calls.filter (·.name.isNone)).map ExternalCall.id

/-- A call that is not a lookup is reported. -/
theorem step_rejected (h : e.name = none) :
    l.step e = { l with sink := l.sink.push (rejection (l.map.lookup l.tree e.id)) } := by
  rw [step, h]
  rfl

/-- A lookup is replaced by the value that it looks up. -/
theorem step_lookup (h : e.name = some text)
    (hok : (l.tree.alloc (.external text e.ty)).2.replace e.id l.tree.slots.size = .ok t') :
    l.step e = { l with tree := t', map := l.map.transfer e.id l.tree.slots.size, count := l.count + 1 } := by
  simp only [step, h, alloc_fst, hok]

/-- How far the calls of a tree have been treated: the lookups among them are replaced and counted, and the others
are reported. The values that replace lookups have their spans, if a new name has none. -/
structure Progress (t : Tree) (map : SourceMap) (sink : Sink) (calls : List ExternalCall) (name : NodeId → NodeId)
    (l : Lowering) : Prop where
  tree : t.Substituted (lookups calls) name l.tree
  count : l.count = (lookups calls).length
  named : l.map.tree = map.tree
  spans : ∀ x < t.slots.size, l.map.get? x = map.get? x
  moved : (∀ x, t.slots.size ≤ x → map.get? x = none) →
    (∀ x ∈ lookups calls, l.map.get? (name x) = map.get? x) ∧ ∀ x, l.tree.slots.size ≤ x → l.map.get? x = none
  sink : ∃ ds, l.sink = sink.extend ds ∧ List.Forall₂ (Reports t map) (rejected calls) ds

/-- Every call of a tree is at a node of its own in the program. -/
theorem externalCall_place (ht : t.Linked) (ha : t.Anchored) (hcalls : t.externalCalls = calls ++ e :: rest) :
    t.Below e.id t.root ∧ t.externalCall? e.id = some e ∧ e.id ∉ lookups calls := by
  have hmem : e ∈ t.externalCalls := by simp [hcalls]
  obtain ⟨x, hx, he⟩ := List.mem_filterMap.mp hmem
  obtain rfl := (exists_call_of_externalCall? he).1
  refine ⟨(ht.mem_preorderOf_iff ha.grounded ha.live).mp hx, he, fun hlookup => ?_⟩
  have hnodup : (t.externalCalls.map ExternalCall.id).Nodup := by
    have hids := ids_filter_externalCalls (t := t) fun _ => true
    rw [List.filter_true] at hids
    rw [hids]
    exact (ht.nodup_preorderOf ha.grounded ha.live).filter _
  rw [hcalls, List.map_append, List.map_cons, List.nodup_middle, List.nodup_cons, List.mem_append, not_or] at hnodup
  obtain ⟨e', he', hid⟩ := List.mem_map.mp hlookup
  exact hnodup.1.1 (List.mem_map.mpr ⟨e', (List.mem_filter.mp he').1, hid⟩)

namespace Progress

variable {name : NodeId → NodeId}

section

variable (h : Progress t map sink calls name l) (ht : t.Linked) (ha : t.Anchored) (hroot : ¬t.IsLookup t.root)
  (hcalls : t.externalCalls = calls ++ e :: rest)

include h ht ha hroot hcalls

/-- The replacement of the next lookup succeeds. -/
theorem exists_replace (hname : e.name = some text) :
    ∃ t', (l.tree.alloc (.external text e.ty)).2.replace e.id l.tree.slots.size = .ok t' ∧
      t.Substituted (lookups calls ++ [e.id]) (swap e.id l.tree.slots.size ∘ name) t' := by
  obtain ⟨hbelow, he, hdone⟩ := externalCall_place ht ha hcalls
  have hlooks := looksUp_of_externalCall? he hname
  have hne : e.id ≠ t.root := fun heq => hroot (heq ▸ ⟨text, e.ty, hlooks⟩)
  exact h.tree.replace ht ha hbelow hne hdone hlooks

/-- The next call is treated. -/
theorem step : ∃ name, Progress t map sink (calls ++ [e]) name (l.step e) := by
  obtain ⟨ds, hsink, hreports⟩ := h.sink
  obtain ⟨hbelow, -, hdone⟩ := externalCall_place ht ha hcalls
  have hlt : e.id < t.slots.size := lt_size_of_contains (hbelow.contains ha.live)
  cases hname : e.name with
  | none =>
    have hlookups : lookups (calls ++ [e]) = lookups calls := by simp [lookups, hname]
    have hrejected : rejected (calls ++ [e]) = rejected calls ++ [e.id] := by simp [rejected, hname]
    rw [step_rejected hname]
    refine ⟨name, hlookups ▸ h.tree, hlookups ▸ h.count, h.named, h.spans, hlookups ▸ h.moved,
      ds ++ [rejection (l.map.lookup l.tree e.id)], ?_, hrejected ▸ List.rel_append hreports (.cons ?_ .nil)⟩
    · simp [hsink, Sink.extend]
    · refine ⟨_, rfl, fun htree => ?_⟩
      rw [SourceMap.lookup, if_pos (by rw [h.tree.id, h.named, htree]), h.spans _ hlt]
  | some text =>
    have hlookups : lookups (calls ++ [e]) = lookups calls ++ [e.id] := by simp [lookups, hname]
    have hrejected : rejected (calls ++ [e]) = rejected calls := by simp [rejected, hname]
    obtain ⟨t', hok, hs⟩ := h.exists_replace ht ha hroot hcalls hname
    have hnew : (swap e.id l.tree.slots.size ∘ name) e.id = l.tree.slots.size := by
      simp [swap, h.tree.same e.id hdone]
    have hsize : l.tree.slots.size < t'.slots.size := hnew ▸ (hs.fresh e.id (by simp)).2
    rw [step_lookup hname hok]
    refine ⟨_, hlookups ▸ hs, by simp [hlookups, h.count], SourceMap.tree_transfer.trans h.named, fun x hx => ?_,
      fun hfresh => ⟨fun x hx => ?_, fun x hx => ?_⟩, ds, hsink, hrejected ▸ hreports⟩
    · exact (SourceMap.get?_transfer_of_ne (Nat.ne_of_lt (Nat.lt_of_lt_of_le hx h.tree.size))).trans (h.spans x hx)
    · rw [hlookups, List.mem_append, List.mem_singleton] at hx
      rcases hx with hx | rfl
      · have hold := h.tree.swap_name hx hlt l.tree.slots.size
        rw [Function.comp_apply, hold, SourceMap.get?_transfer_of_ne (Nat.ne_of_lt (h.tree.fresh x hx).2)]
        exact (h.moved hfresh).1 x hx
      · rw [hnew, SourceMap.get?_transfer ((h.moved hfresh).2 _ (Nat.le_refl _)), if_pos rfl, h.spans _ hlt]
    · have hle := Nat.lt_of_lt_of_le hsize hx
      exact (SourceMap.get?_transfer_of_ne (Nat.ne_of_gt hle)).trans ((h.moved hfresh).2 x (Nat.le_of_lt hle))

end

end Progress

/-- The first calls of a tree are treated, if its root is not a lookup. -/
theorem progress_foldl (ht : t.Linked) (ha : t.Anchored) (hroot : ¬t.IsLookup t.root) (map : SourceMap) (sink : Sink)
    (hcalls : t.externalCalls = calls ++ rest) :
    ∃ name, Progress t map sink calls name (calls.foldl step { tree := t, map, sink }) := by
  induction calls using List.reverseRecOn generalizing rest with
  | nil => exact ⟨_, ht.substituted ha, rfl, rfl, fun _ _ => rfl, fun hfresh => ⟨by simp [lookups], hfresh⟩, [], rfl, .nil⟩
  | append_singleton calls e ih =>
    rw [List.append_assoc] at hcalls
    rw [List.foldl_append]
    obtain ⟨name, h⟩ := ih hcalls
    exact h.step ht ha hroot hcalls

/-- Without lookups, nothing is replaced. -/
theorem foldl_rejected (h : ∀ e ∈ calls, e.name = none) :
    (calls.foldl step l).tree = l.tree ∧ (calls.foldl step l).count = l.count := by
  induction calls generalizing l with
  | nil => exact ⟨rfl, rfl⟩
  | cons e rest ih =>
    rw [List.forall_mem_cons] at h
    rw [List.foldl_cons, step_rejected h.1]
    exact ih h.2

/-- The lookups among the calls of a tree, in the order of its traversal. -/
theorem lookups_externalCalls (t : Tree) : lookups t.externalCalls = t.preorder.filter (t.IsLookup ·) := by
  rw [lookups, ids_filter_externalCalls]
  exact List.filter_congr fun x _ => Bool.eq_iff_iff.mpr (any_isSome_externalCall?.trans (by simp))

/-- The rejected calls of a tree, in the order of its traversal. -/
theorem rejected_externalCalls (t : Tree) : rejected t.externalCalls = t.preorder.filter (t.Rejected ·) := by
  rw [rejected, ids_filter_externalCalls]
  exact List.filter_congr fun x _ => Bool.eq_iff_iff.mpr (any_isNone_externalCall?.trans (by simp))

/-- All lookups of the program are treated. -/
theorem mem_lookups_iff (ht : t.Linked) (ha : t.Anchored) (x : NodeId) :
    x ∈ lookups t.externalCalls ↔ t.Below x t.root ∧ t.IsLookup x := by
  have hmem : x ∈ t.preorder ↔ t.Below x t.root := ht.mem_preorderOf_iff ha.grounded ha.live
  simp [lookups_externalCalls, hmem]

/-- A root that is a block is not a lookup. -/
theorem not_isLookup_root (hroot : t.Rooted) : ¬t.IsLookup t.root := by
  rintro ⟨text, ty, function, arg, hcall, -⟩
  obtain ⟨statements, hblock⟩ := hroot.block
  exact absurd (hcall.symm.trans hblock) (by simp)

/-- Lookups are replaced and nothing else. In a tree that calls can make, with any map and any sink: the program
becomes the program with a value in the place of every call that looks up one string literal, under a name that
the tree did not have, while every other node keeps its name, its content and its place. The number that is
returned is the number of these lookups. Every other call of these functions gives one semantic error, in the
order of the traversal, and there are no other errors: for no lookup is the replacement refused. A second run, with
any map and any sink, replaces nothing and leaves the tree as it is. -/
theorem replaces_exactly_lookups (h : Reachable t) (map : SourceMap) (sink : Sink) :
    let l := run t map sink
    (∃ name : NodeId → NodeId, Term.Lowered name t.program l.tree.program ∧
      (∀ x ∈ t.preorder, t.IsLookup x → t.slots.size ≤ name x) ∧
      ∀ x ∈ t.preorder, ∀ y ∈ t.preorder, t.IsLookup x → t.IsLookup y → name x = name y → x = y) ∧
    l.count = (t.preorder.filter (t.IsLookup ·)).length ∧
    (∃ ds, l.sink = sink.extend ds ∧ List.Forall₂ (Reports t map) (t.preorder.filter (t.Rejected ·)) ds) ∧
    (∀ before e after text, t.externalCalls = before ++ e :: after → e.name = some text →
      let s := (before.foldl step { tree := t, map, sink }).tree
      ∃ s', (s.alloc (.external text e.ty)).2.replace e.id (s.alloc (.external text e.ty)).1 = .ok s') ∧
    ∀ map' sink', (run l.tree map' sink').count = 0 ∧ (run l.tree map' sink').tree = l.tree := by
  intro l
  obtain ⟨ht, hroot⟩ := h.linked_rooted
  have ha := hroot.anchored
  have hfirst {calls rest : List ExternalCall} (hcalls : t.externalCalls = calls ++ rest) :=
    progress_foldl ht ha (not_isLookup_root hroot) map sink hcalls
  obtain ⟨name, hprogress⟩ := hfirst (List.append_nil _).symm
  have hs := hprogress.tree
  have hdone (x : NodeId) : x ∈ t.preorder → t.IsLookup x → x ∈ lookups t.externalCalls := fun hx hlookup =>
    (mem_lookups_iff ht ha x).mpr ⟨(ht.mem_preorder_iff hroot).mp hx, hlookup⟩
  have hall (x : NodeId) (hx : t.Below x t.root) (hlookup : t.IsLookup x) : x ∈ lookups t.externalCalls :=
    (mem_lookups_iff ht ha x).mpr ⟨hx, hlookup⟩
  refine ⟨⟨name, hs.lowered ht ha hall, fun x hx hlookup => (hs.fresh x (hdone x hx hlookup)).1,
    fun x hx y hy hxl hyl => hs.injective x (hdone x hx hxl) y (hdone y hy hyl)⟩, ?_, ?_, ?_, ?_⟩
  · rw [← lookups_externalCalls]
    exact hprogress.count
  · rw [← rejected_externalCalls]
    exact hprogress.sink
  · intro before e after text hcalls hname
    obtain ⟨_, hbefore⟩ := hfirst hcalls
    obtain ⟨s', hok, -⟩ := hbefore.exists_replace ht ha (not_isLookup_root hroot) hcalls hname
    exact ⟨s', hok⟩
  · intro map' sink'
    have hnone : ∀ e ∈ l.tree.externalCalls, e.name = none := by
      intro e he
      obtain ⟨y, hy, hcall⟩ := List.mem_filterMap.mp he
      have hleft := hs.not_isLookup ht ha hall ((hs.linked.mem_preorder_iff (hs.rooted hroot)).mp hy)
      cases hname : e.name with
      | none => rfl
      | some text => exact absurd ⟨text, e.ty, looksUp_of_externalCall? hcall hname⟩ hleft
    exact (foldl_rejected hnone).symm

/-- A list of a lookup and of a call whose argument is a lookup: both lookups are replaced, by names that the tree did
not have, and the call around the second is reported and stays. -/
theorem replaces_exactly_lookups_nested :
    let t := [Call.add (.value (.string "gain")), .add (.call "external" [1]), .add (.value (.string "wind")),
      .add (.call "externalv" [3]), .add (.call "external" [4]), .add (.pack [2, 5]), .pushStatement 0 6].foldl
        Call.after (.empty 0)
    let l := run t (.empty t) {}
    (Reachable t ∧ t.preorder = [0, 6, 2, 1, 5, 4, 3] ∧ t.LooksUp 2 "gain" .float ∧ t.LooksUp 4 "wind" .vec3f) ∧
      (∃ name : NodeId → NodeId, Term.Lowered name t.program l.tree.program ∧ 7 ≤ name 2 ∧ 7 ≤ name 4) ∧ l.count = 2 ∧
      (∃ d, l.sink = Sink.push {} d ∧ Reports t (.empty t) 5 d) ∧ (run l.tree (.empty t) {}).tree = l.tree := by
  intro t l
  have ht : Reachable t := (Reachable.empty 0).calls (by simp [Call.Permitted])
  have hpreorder : t.preorder = [0, 6, 2, 1, 5, 4, 3] := by decide
  have hlookups : t.preorder.filter (t.IsLookup ·) = [2, 4] := by decide
  have hrejected : t.preorder.filter (t.Rejected ·) = [5] := by decide
  have hsize : t.slots.size = 7 := by decide
  have hlooks : t.LooksUp 2 "gain" .float ∧ t.LooksUp 4 "wind" .vec3f :=
    ⟨⟨"external", 1, by decide, by decide, by decide⟩, ⟨"externalv", 3, by decide, by decide, by decide⟩⟩
  obtain ⟨⟨name, hlowered, hfresh, -⟩, hcount, ⟨ds, hsink, hreports⟩, -, hagain⟩ :=
    replaces_exactly_lookups ht (.empty t) {}
  rw [hlookups] at hcount
  rw [hrejected] at hreports
  obtain ⟨d, ds, hd, hnil, rfl⟩ := List.forall₂_cons_left_iff.mp hreports
  obtain rfl := List.forall₂_nil_left_iff.mp hnil
  have hmem : 2 ∈ t.preorder ∧ 4 ∈ t.preorder := by rw [hpreorder]; decide
  refine ⟨⟨ht, hpreorder, hlooks⟩, ⟨name, hlowered, ?_, ?_⟩, hcount, ⟨d, hsink, hd⟩, (hagain (.empty t) {}).2⟩
  · exact hsize ▸ hfresh 2 hmem.1 ⟨_, _, hlooks.1⟩
  · exact hsize ▸ hfresh 4 hmem.2 ⟨_, _, hlooks.2⟩

end Lowering

end Elementwise
