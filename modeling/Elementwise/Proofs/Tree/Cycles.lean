import Elementwise.Proofs.Tree.Reachable

/-!
# When owners lead round in a circle

Operations look at a node to see whether it has an owner, and not at what is below it. So a detached node
can be put below itself, and its owners then lead round in a circle: no walk over it ends. This is the only
way: as long as no call gives a node to something below it, the owners of every node lead to the root or to
a detached node, and walking, importing and freeing end wherever they start.
-/

namespace Elementwise.Tree

open Relation (ReflTransGen TransGen)

variable {t t' : Tree} {c p x y : NodeId} {n : Node NodeId} {new gone : List NodeId} {S : NodeId → Prop} {call : Call}

/-- No node is its own ancestor. -/
def Acyclic (t : Tree) : Prop := ∀ x, ¬TransGen t.OwnedBy x x

/-- Where no owners lead round in a circle, they come to an end. -/
theorem Linked.grounded_of_acyclic (h : t.Linked) (hacyclic : t.Acyclic) (x : NodeId) : t.Grounded x := by
  classical
  let ancestors (x : NodeId) : Finset NodeId := (Finset.range t.slots.size).filter (TransGen t.OwnedBy x)
  -- an owner has fewer ancestors: itself is one less
  have hfewer {x p : NodeId} (hp : t.parent? x = some p) : (ancestors p).card < (ancestors x).card := by
    refine Finset.card_lt_card (Finset.ssubset_iff_subset_ne.mpr ⟨fun y hy => ?_, fun heq => ?_⟩)
    · obtain ⟨hsize, hy⟩ := Finset.mem_filter.mp hy
      exact Finset.mem_filter.mpr ⟨hsize, .head hp hy⟩
    · have hmem : p ∈ ancestors x :=
        Finset.mem_filter.mpr ⟨Finset.mem_range.mpr (lt_size_of_contains (h.contains_parent hp)), .single hp⟩
      rw [← heq] at hmem
      exact hacyclic p (Finset.mem_filter.mp hmem).2
  induction hk : (ancestors x).card using Nat.strongRecOn generalizing x with
  | ind k ih =>
    cases hp : t.parent? x with
    | none => exact .of_free hp
    | some p => exact .of_parent? hp (ih _ (hk ▸ hfewer hp) p rfl)

/-- A list is not walked over if one of its nodes is not. -/
theorem foldlM_eq_none {σ : Type} {f : σ → NodeId → Option σ} {cs : List NodeId} (hc : c ∈ cs)
    (h : ∀ s, f s c = none) (s : σ) : cs.foldlM f s = none := by
  induction cs generalizing s with
  | nil => cases hc
  | cons first rest ih =>
    rw [List.foldlM_cons]
    rcases List.mem_cons.mp hc with rfl | hc
    · rw [h]
      rfl
    · cases f s first with
      | none => rfl
      | some s' => exact ih hc s'

/-- No walk from a node that is its own ancestor ends. -/
theorem Linked.walk_eq_none (h : t.Linked) (hx : TransGen t.OwnedBy x x) (depth : Nat) :
    InPlace.walk t (fun _ => false) depth x = none := by
  suffices hwalk : ∀ seen, InPlace.walkWith t (.recorder fun _ => false) depth x seen = none from hwalk []
  induction depth generalizing x with
  | zero => exact fun _ => rfl
  | succ depth ih =>
    -- the node is on the circle with one of its children
    obtain ⟨c, hbelow, hc⟩ := TransGen.tail'_iff.mp hx
    obtain ⟨n, hn, hmem⟩ := h.listed c x hc
    intro seen
    rw [InPlace.walkWith, hn]
    simp only [Visitor.visit_recorder, Bool.false_eq_true, if_false]
    exact foldlM_eq_none hmem (ih (TransGen.head' hc hbelow)) _

namespace Relinks

/-- Owners come to an end if no node was given to something below it. -/
theorem grounded (hr : Relinks t p n new gone t') (hall : ∀ y, t.Grounded y) (hnew : ∀ c ∈ new, ¬t.Below p c)
    (y : NodeId) : t'.Grounded y := by
  have hgone {y : NodeId} (hy : y ∈ gone) : t'.Grounded y := .of_free (hr.parent?_gone hy)
  -- first what is not below a node that was given away, the new owner among it
  have hapart {y : NodeId} (hy : ∀ c ∈ new, ¬t.Below y c) : t'.Grounded y := by
    obtain ⟨top, hbelow, htop⟩ := hall y
    induction hbelow using ReflTransGen.head_induction_on with
    | refl =>
      by_cases hg : top ∈ gone
      · exact hgone hg
      · exact .of_free ((hr.parent?_kept hg fun hc => hy top hc .refl).trans htop)
    | @head y q hq _ ih =>
      by_cases hg : y ∈ gone
      · exact hgone hg
      · have hparent : t'.parent? y = some q := (hr.parent?_kept hg fun hc => hy y hc .refl).trans hq
        exact .of_parent? hparent (ih fun c hc hbelow => hy c hc (hbelow.head hq))
  obtain ⟨top, hbelow, htop⟩ := hall y
  induction hbelow using ReflTransGen.head_induction_on with
  | refl =>
    by_cases hg : top ∈ gone
    · exact hgone hg
    · by_cases hc : top ∈ new
      · exact .of_parent? (hr.parent?_new hc) (hapart hnew)
      · exact .of_free ((hr.parent?_kept hg hc).trans htop)
  | @head y q hq _ ih =>
    by_cases hg : y ∈ gone
    · exact hgone hg
    · by_cases hc : y ∈ new
      · exact .of_parent? (hr.parent?_new hc) (hapart hnew)
      · exact .of_parent? ((hr.parent?_kept hg hc).trans hq) ih

/-- A node that was given to something below it is its own ancestor. -/
theorem ancestor (hr : Relinks t p n new gone t') (hp : t.Grounded p) (hc : c ∈ new) (hbelow : t.Below p c) :
    TransGen t'.OwnedBy c c := by
  -- a name on the way from the owner has an owner, so it is not new, and it is not one that the owner lost
  have hrest {y : NodeId} (hy : t.Below p y) : t'.Below p y := by
    induction hy with
    | refl => exact .refl
    | @tail y z hy hz ih =>
      have hgone : y ∉ gone := fun hg => hp.not_below_child (hr.owned y hg) hy
      exact ih.tail ((hr.parent?_kept hgone (hr.not_mem_new hz)).trans hz)
  exact TransGen.head' (hr.parent?_new hc) (hrest hbelow)

end Relinks

namespace Clears

/-- Owners still come to an end when slots are emptied. -/
theorem grounded (hclears : Clears S t t') (hy : t.Grounded y) : t'.Grounded y := by
  have hgone {y : NodeId} (hy : S y) : t'.Grounded y := .of_free (by rw [parent?, hclears.gone y hy]; rfl)
  obtain ⟨top, hbelow, htop⟩ := hy
  induction hbelow using ReflTransGen.head_induction_on with
  | refl =>
    by_cases hS : S top
    · exact hgone hS
    · exact .of_free ((hclears.parent?_kept hS).trans htop)
  | @head y q hq _ ih =>
    by_cases hS : S y
    · exact hgone hS
    · exact .of_parent? ((hclears.parent?_kept hS).trans hq) ih

/-- Owners that are kept with what they own lead where they led. -/
theorem ancestor (hclears : Clears S t t') (hS : ∀ c p, t.parent? c = some p → (S c ↔ S p)) (hx : ¬S x)
    (h : TransGen t.OwnedBy x y) : TransGen t'.OwnedBy x y := by
  induction h using TransGen.head_induction_on with
  | @single x hxy => exact .single ((hclears.parent?_kept hx).trans hxy)
  | @head x z hxz _ ih => exact .head ((hclears.parent?_kept hx).trans hxz) (ih (mt (hS _ _ hxz).mpr hx))

end Clears

/-- Owners come to an end after an operation unless it gave a node to something below it. -/
theorem Splices.grounded (hs : Splices t p new gone t') (hall : ∀ y, t.Grounded y) (hnew : ∀ c ∈ new, ¬t.Below p c)
    (y : NodeId) : t'.Grounded y := by
  obtain ⟨n, t₁, hlink, -, hclears⟩ := hs.relinks
  exact hclears.grounded (hlink.grounded hall hnew y)

/-- An operation that gives a node to something below it makes it its own ancestor. -/
theorem Splices.ancestor (hs : Splices t p new gone t') (hp : t.Grounded p) (hc : c ∈ new) (hbelow : t.Below p c) :
    TransGen t'.OwnedBy c c := by
  obtain ⟨n, t₁, hlink, -, hclears⟩ := hs.relinks
  have hfree (x : NodeId) : x ∈ gone → t₁.parent? x = none := hlink.parent?_gone
  have hcycle := hlink.ancestor hp hc hbelow
  refine hclears.ancestor (fun c p hc => below_free_iff hfree hc) ?_ hcycle
  -- what is freed is below a node without an owner, so it is not on a circle
  rintro ⟨x, hx, hcx⟩
  exact (Grounded.of_free (hfree x hx)).below hcx |>.not_ancestor hcycle

/-- Owners come to an end after an import. -/
theorem Imported.grounded {s : Tree} (hi : Imported s t x y t') (hall : ∀ z, t.Grounded z) (z : NodeId) : t'.Grounded z := by
  have hnew {z : NodeId} (hz : t.slots.size ≤ z) : t'.Grounded z := by
    by_cases hz' : z < t'.slots.size
    · exact ⟨y, hi.below z hz hz', hi.free⟩
    · exact .of_free (by rw [parent?, slot?_of_size_le (Nat.not_lt.mp hz')]; rfl)
  obtain ⟨top, hbelow, htop⟩ := hall z
  induction hbelow using ReflTransGen.head_induction_on with
  | refl =>
    by_cases hold : top < t.slots.size
    · exact .of_free ((hi.grows.parent? top hold).trans htop)
    · exact hnew (Nat.not_lt.mp hold)
  | head hq _ ih => exact .of_parent? (hi.grows.parent?_of_some hq) ih

/-- A call gives a node to something below it, and is not refused. -/
def Call.UnderItself (t : Tree) (call : Call) : Prop :=
  (∃ t', call.run t = .ok t') ∧ ∃ p, call.place t = some p ∧ ∃ c ∈ call.given, t.Below p c

namespace Call

/-- Owners come to an end after a call that gives no node to something below it. -/
theorem grounded_after (h : t.Linked) (hsource : call.Sourced) (hall : ∀ y, t.Grounded y) (hcall : ¬call.UnderItself t)
    (y : NodeId) : (call.after t).Grounded y := by
  rw [after]
  split
  · next t' hok =>
    rcases splices h hok with ⟨source, id, rfl, rfl⟩ | ⟨p, hp, hs⟩
    · obtain ⟨hlinked, hrooted, hid⟩ := hsource source id rfl
      exact (hlinked.imported_root hrooted hid h).grounded hall y
    · exact hs.grounded hall (fun c hc hbelow => hcall ⟨⟨t', hok⟩, p, hp, c, hc, hbelow⟩) y
  · exact hall y

/-- After a call that gives a node to something below it, a node is its own ancestor. -/
theorem ancestor_after (h : t.Linked) (hall : ∀ y, t.Grounded y) (hcall : call.UnderItself t) :
    ∃ x, TransGen (call.after t).OwnedBy x x := by
  obtain ⟨⟨t', hok⟩, p, hp, c, hc, hbelow⟩ := hcall
  rcases splices h hok with ⟨source, id, rfl, -⟩ | ⟨p', hp', hs⟩
  · cases hp
  · obtain rfl := Option.some.inj (hp.symm.trans hp')
    refine ⟨c, ?_⟩
    rw [after, hok]
    exact hs.ancestor (hall p) hc hbelow

end Call

/-- Every tree on the way of permitted calls is one that calls can make. -/
theorem Reachable.scanl (h : Reachable t) {calls : List Call} (hcalls : ∀ call ∈ calls, call.Permitted) :
    ∀ s ∈ calls.scanl Call.after t, Reachable s := by
  induction calls generalizing t with
  | nil => simpa using h
  | cons call rest ih =>
    obtain ⟨hcall, hrest⟩ := List.forall_mem_cons.mp hcalls
    rw [List.scanl_cons, List.forall_mem_cons]
    exact ⟨h, ih (h.after hcall) hrest⟩

/-- From a tree in which owners come to an end, none on the way has a node that is its own ancestor unless a
call gives a node to something below it. -/
theorem Reachable.acyclic_iff (h : Reachable t) (hall : ∀ y, t.Grounded y) {calls : List Call}
    (hcalls : ∀ call ∈ calls, call.Permitted) :
    (∀ s ∈ calls.scanl Call.after t, s.Acyclic) ↔
      ∀ step ∈ (calls.scanl Call.after t).zip calls, ¬step.2.UnderItself step.1 := by
  have hacyclic : t.Acyclic := fun x => (hall x).not_ancestor
  induction calls generalizing t with
  | nil => simpa using hacyclic
  | cons call rest ih =>
    obtain ⟨hcall, hrest⟩ := List.forall_mem_cons.mp hcalls
    obtain ⟨hlinked, -⟩ := h.linked_rooted
    rw [List.scanl_cons, List.zip_cons_cons, List.forall_mem_cons, List.forall_mem_cons, and_iff_right hacyclic]
    by_cases hunder : call.UnderItself t
    · -- the first call makes a circle, which is in the second tree
      obtain ⟨x, hx⟩ := Call.ancestor_after hlinked hall hunder
      refine iff_of_false (fun hafter => ?_) fun hsteps => hsteps.1 hunder
      exact hafter (call.after t) (by cases rest <;> simp) x hx
    · have hall' := Call.grounded_after hlinked hcall.sourced hall hunder
      rw [and_iff_right hunder]
      exact ih (h.after hcall) hall' hrest fun x => (hall' x).not_ancestor

/-- On the way of calls from the empty program, no node is its own ancestor exactly as long as no call gives a
node to something below it. In a tree without such a node the owners of every live node lead to the root or
to a detached node, and walking, importing and freeing from it end. No walk from such a node ends. -/
theorem acyclic_unless_under_itself (id : Nat) (calls : List Call) (hcalls : ∀ call ∈ calls, call.Permitted) :
    ((∀ t ∈ calls.scanl Call.after (.empty id), t.Acyclic) ↔
      ∀ step ∈ (calls.scanl Call.after (.empty id)).zip calls, ¬step.2.UnderItself step.1) ∧
    ∀ t ∈ calls.scanl Call.after (.empty id),
      (t.Acyclic → ∀ x, t.contains x = true →
        (∃ top, t.Below x top ∧ (top = t.root ∨ t.isDetached top = true)) ∧
        (∀ skip, Settles (fun depth => InPlace.walk t skip depth x) ((t.term x).walk skip)) ∧
        (∀ d, Reachable d → Settles (fun depth => (InPlace.importNode t depth x).on d)
          (.ok (d.importNode t x).1, (d.importNode t x).2)) ∧
        Settles (fun depth => (InPlace.free depth x : InPlace SpliceError Unit).on t) (.ok (), t.free x)) ∧
      ∀ x, TransGen t.OwnedBy x x → ∀ depth, InPlace.walk t (fun _ => false) depth x = none := by
  refine ⟨(Reachable.empty id).acyclic_iff (fun _ => .of_free (parent?_empty id)) hcalls, fun t ht => ?_⟩
  obtain ⟨hlinked, hrooted⟩ := ((Reachable.empty id).scanl hcalls t ht).linked_rooted
  refine ⟨fun hacyclic x hlive => ?_, fun x hx depth => hlinked.walk_eq_none hx depth⟩
  have hx := hlinked.grounded_of_acyclic hacyclic x
  refine ⟨?_, hlinked.walk_settles hx hlive, fun d hd => ?_,
    .of_lt t.slots.size fun depth hdepth => hlinked.free_on hx hlive hdepth⟩
  · obtain ⟨top, hbelow, htop⟩ := hx
    refine ⟨top, hbelow, ?_⟩
    by_cases hroot : top = t.root
    · exact .inl hroot
    · exact .inr (isDetached_iff.mpr ⟨hroot, hlinked.contains_below hlive hbelow, htop⟩)
  · obtain ⟨hlinked', hrooted'⟩ := hd.linked_rooted
    have himported := hlinked.imported hx hlive (Nat.lt_succ_of_le (t.weight_le x)) hlinked'
    exact .of_lt (t.weight x) (himported.runs fun z hz _ => hrooted'.ne_of_size_le hz)

/-- A statement of the root block: no node is its own ancestor. -/
theorem acyclic_pushed : (∀ call ∈ [Call.add (.block []), .pushStatement 0 1], call.Permitted) ∧
    ∀ t ∈ [Call.add (.block []), .pushStatement 0 1].scanl Call.after (.empty 0), t.Acyclic := by
  have hcalls : ∀ call ∈ [Call.add (.block []), .pushStatement 0 1], call.Permitted := by simp [Call.Permitted]
  refine ⟨hcalls, (acyclic_unless_under_itself 0 _ hcalls).1.mpr ?_⟩
  simp only [List.scanl_cons, List.zip_cons_cons, List.scanl_nil, List.zip_nil_right, List.forall_mem_cons]
  refine ⟨?_, ?_, List.forall_mem_nil _⟩
  · rintro ⟨-, p, -, c, hc, -⟩
    cases hc
  · rintro ⟨-, p, hp, c, hc, hbelow⟩
    obtain rfl := Option.some.inj hp
    obtain rfl := List.mem_singleton.mp hc
    exact absurd (hbelow.eq_of_free (by decide)) (by decide)

/-- A detached block takes itself as a statement, and no walk from it ends. -/
theorem block_under_itself : ∃ t t', (Call.add (.block [])).run (.empty 0) = .ok t ∧
    (Call.pushStatement 1 1).run t = .ok t' ∧ TransGen t'.OwnedBy 1 1 ∧
      ∀ depth, InPlace.walk t' (fun _ => false) depth 1 = none := by
  have h : Reachable ([Call.add (.block []), .pushStatement 1 1].foldl Call.after (.empty 0)) :=
    (Reachable.empty 0).calls (by simp [Call.Permitted])
  have hself : TransGen ([Call.add (.block []), .pushStatement 1 1].foldl Call.after (.empty 0)).OwnedBy 1 1 :=
    .single (by decide : ([Call.add (.block []), .pushStatement 1 1].foldl Call.after (.empty 0)).parent? 1 = some 1)
  exact ⟨_, _, rfl, rfl, hself, h.linked_rooted.1.walk_eq_none hself⟩

end Elementwise.Tree
