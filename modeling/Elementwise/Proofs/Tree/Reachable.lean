import Elementwise.Proofs.Tree.Import
import Elementwise.Proofs.Tree.Preorder

/-!
# Every node has one owner

The trees that calls can make, starting from an empty tree or from a copy, whether or not the calls are
refused. In each of them a node is listed by its owner and by no other node, names are not used again, a
refused call changes nothing, and the two traversals from the root come to the same names.
-/

namespace Elementwise.Tree

/-- A call of an operation on a tree. -/
inductive Call where
  | add (node : Node NodeId)
  | pushStatement (block statement : NodeId)
  | append (statement : NodeId)
  | replace (node replacement : NodeId)
  | removeStatement (node : NodeId)
  | importNode (source : Tree) (id : NodeId)

/-- Why a call was refused. -/
inductive Refusal where
  | misuse (cause : Misuse)
  | splice (cause : SpliceError)

namespace Call

/-- The tree after a call that is not refused. -/
def run (t : Tree) : Call → Except Refusal Tree
  | add node => ((t.add node).map Prod.snd).mapError .misuse
  | pushStatement block statement => (t.pushStatement block statement).mapError .misuse
  | append statement => (t.append statement).mapError .misuse
  | replace node replacement => (t.replace node replacement).mapError .splice
  | removeStatement node => (t.removeStatement node).mapError .splice
  | importNode source id => .ok (t.importNode source id).2

/-- The same call in place. -/
def perform (depth : Nat) : Call → InPlace Refusal Unit
  | add node => (InPlace.add node *> pure () : InPlace Misuse Unit).refusing .misuse
  | pushStatement block statement => (InPlace.pushStatement block statement).refusing .misuse
  | append statement => do (InPlace.pushStatement (← get).root statement).refusing .misuse
  | replace node replacement => (InPlace.replace depth node replacement).refusing .splice
  | removeStatement node => (InPlace.removeStatement depth node).refusing .splice
  | importNode source id => (InPlace.importNode source depth id *> pure () : InPlace Misuse Unit).refusing .misuse

/-- The node that a call gives children to or takes children from. -/
def place (t : Tree) : Call → Option NodeId
  | add _ => some t.slots.size
  | pushStatement block _ => some block
  | append _ => some t.root
  | replace node _ | removeStatement node => t.parent? node
  | importNode _ _ => none

/-- The nodes that a call gives an owner. -/
def given : Call → List NodeId
  | add node => node.children
  | pushStatement _ node | append node | replace _ node => [node]
  | removeStatement _ | importNode _ _ => []

/-- The nodes that a call frees with all below them. -/
def taken : Call → List NodeId
  | replace node _ | removeStatement node => [node]
  | add _ | pushStatement _ _ | append _ | importNode _ _ => []

/-- The tree after a call; one that is refused leaves it as it was. -/
def after (t : Tree) (call : Call) : Tree :=
  match call.run t with
  | .ok t' => t'
  | .error _ => t

end Call

/-- The trees that calls can make. A node is imported from below the root of such a tree. -/
inductive Reachable : Tree → Prop
  | empty (id : Nat) : Reachable (.empty id)
  | copy {t} (id : Nat) (h : Reachable t) : Reachable (t.copy id)
  | call {t} {call : Call} (h : Reachable t) (hsource : ∀ source id, call = .importNode source id → Reachable source)
      (hid : ∀ source id, call = .importNode source id → id ∈ source.preorder) : Reachable (call.after t)

/-- A call that imports, if at all, from below the root of a tree that calls can make. -/
def Call.Permitted (call : Call) : Prop :=
  ∀ source id, call = .importNode source id → Reachable source ∧ id ∈ source.preorder

/-- What comes after a tree: links, a root, and no name that was used before. -/
structure Follows (t t' : Tree) : Prop where
  linked : t'.Linked
  rooted : t'.Rooted
  size : t.slots.size ≤ t'.slots.size
  fresh : ∀ x, t'.contains x = true → t.contains x = true ∨ t.slots.size ≤ x

variable {t t' t'' : Tree} {x y : NodeId} {call : Call}

namespace Follows

theorem refl (h : t.Linked) (hroot : t.Rooted) : t.Follows t := ⟨h, hroot, Nat.le_refl _, fun _ => .inl⟩

theorem trans (h : t.Follows t') (h' : t'.Follows t'') : t.Follows t'' where
  linked := h'.linked
  rooted := h'.rooted
  size := Nat.le_trans h.size h'.size
  fresh x hx := by
    rcases h'.fresh x hx with hx | hx
    · exact h.fresh x hx
    · exact .inr (Nat.le_trans h.size hx)

end Follows

namespace Splices

variable {p : NodeId} {new gone : List NodeId}

/-- What an operation leaves is linked. -/
theorem linked (hs : Splices t p new gone t') (h : t.Linked) : t'.Linked := by
  obtain ⟨n, t₁, hlink, -, hclears⟩ := hs.relinks
  exact hclears.linked (hlink.linked h) fun c p hc => below_free_iff (fun x => hlink.parent?_gone) hc

theorem root_notMem (hs : Splices t p new gone t') : t.root ∉ new := fun hc =>
  (isDetached_iff.mp (hs.detached _ hc)).1 rfl

/-- A root that nothing owns stays. -/
theorem anchored (hs : Splices t p new gone t') (ha : t.Anchored) : t'.Anchored := by
  obtain ⟨n, t₁, hlink, -, hclears⟩ := hs.relinks
  obtain ⟨hfree, hkept⟩ := hlink.root_free ha.free hs.root_notMem
  obtain ⟨m, hm⟩ := contains_iff.mp (hlink.anchored ha hs.root_notMem).live
  exact ⟨contains_iff.mpr ⟨m, by rw [hclears.root, hclears.get?_kept hkept, hm]⟩,
    by rw [hclears.root, hclears.parent?_kept hkept, hfree]⟩

/-- What an operation leaves comes after the tree. -/
theorem follows (hs : Splices t p new gone t') (h : t.Linked) (hroot : t.Rooted) : t.Follows t' := by
  obtain ⟨n, t₁, hlink, hblock, hclears⟩ := hs.relinks
  have hroot₁ := hlink.rooted hroot hs.root_notMem hblock
  refine ⟨hs.linked h, hclears.rooted hroot₁ (hlink.root_free hroot.free hs.root_notMem).2, ?_, ?_⟩
  · exact hclears.size ▸ hlink.size
  · exact fun x hx => hlink.contains (hclears.contains hx)

end Splices

/-- What an import leaves comes after the tree. -/
theorem Imported.follows {s : Tree} (hi : Imported s t x y t') (hroot : t.Rooted) : t.Follows t' := by
  have hlt := lt_size_of_contains hroot.live
  refine ⟨hi.linked, ⟨?_, ?_⟩, hi.grows.size, fun z hz => ?_⟩
  · rw [hi.grows.root, hi.grows.get? _ hlt]
    exact hroot.block
  · rw [hi.grows.root, hi.grows.parent? _ hlt]
    exact hroot.free
  · by_cases hold : z < t.slots.size
    · obtain ⟨n, hn⟩ := contains_iff.mp hz
      exact .inl (contains_iff.mpr ⟨n, (hi.grows.get? z hold).symm.trans hn⟩)
    · exact .inr (Nat.not_lt.mp hold)

/-- Importing a node from below the root. -/
theorem Linked.imported_root {s : Tree} (hs : s.Linked) (hsroot : s.Rooted) (hx : x ∈ s.preorder) (h : t.Linked) :
    Imported s t x (t.importNode s x).1 (t.importNode s x).2 := by
  have hbelow := (hs.mem_preorder_iff hsroot).mp hx
  exact hs.imported (hsroot.grounded.below hbelow) (hbelow.contains hsroot.live) (Nat.lt_succ_of_le (s.weight_le x)) h

namespace Call

/-- Another name for a refusal changes nothing else. -/
theorem mapError_eq_ok {ε ε' α : Type} {r : Except ε α} {f : ε → ε'} {a : α} (h : r.mapError f = .ok a) : r = .ok a := by
  cases r with
  | ok b => exact congrArg Except.ok (Except.ok.inj h)
  | error e => cases h

/-- A call that is not refused imports a node, or splices what it gives and takes into one place. -/
theorem splices (h : t.Linked) (hok : call.run t = .ok t') :
    (∃ source id, call = .importNode source id ∧ t' = (t.importNode source id).2) ∨
      ∃ p, call.place t = some p ∧ Splices t p call.given call.taken t' := by
  cases call with
  | add node =>
    have hadd := mapError_eq_ok hok
    cases hr : t.add node with
    | error e => rw [hr] at hadd; cases hadd
    | ok r =>
      rw [hr] at hadd
      obtain rfl : r.2 = t' := Except.ok.inj hadd
      exact .inr ⟨_, rfl, h.splices_add hr⟩
  | pushStatement | append => exact .inr ⟨_, rfl, h.splices_push (mapError_eq_ok hok)⟩
  | replace node replacement => exact .inr (h.splices_replace (mapError_eq_ok hok))
  | removeStatement node => exact .inr (h.splices_remove (mapError_eq_ok hok))
  | importNode source id => exact .inl ⟨source, id, rfl, (Except.ok.inj hok).symm⟩

/-- The nodes that a call may import are below the root of a linked tree. -/
def Sourced (call : Call) : Prop :=
  ∀ source id, call = .importNode source id → source.Linked ∧ source.Rooted ∧ id ∈ source.preorder

/-- What a call leaves comes after the tree. -/
theorem follows (h : t.Linked) (hroot : t.Rooted) (hsource : call.Sourced) : t.Follows (call.after t) := by
  rw [after]
  split
  · next t' hok =>
    rcases splices h hok with ⟨source, id, rfl, rfl⟩ | ⟨p, -, hs⟩
    · obtain ⟨hlinked, hrooted, hid⟩ := hsource source id rfl
      exact (hlinked.imported_root hrooted hid h).follows hroot
    · exact hs.follows h hroot
  · exact .refl h hroot

/-- A call in place leaves the tree as it was if it is refused, and else as it is after the call. -/
theorem perform_settles (h : t.Linked) (hroot : t.Rooted) (hsource : call.Sourced) :
    Settles (fun depth => (call.perform depth).on t) (InPlace.outcome t ((call.run t).map ((), ·))) := by
  have hcomm {ε ε' : Type} (r : Except ε Tree) (f : ε → ε') :
      ((r.map (((), ·) : Tree → Unit × Tree)).mapError f) = (r.mapError f).map ((), ·) := by cases r <;> rfl
  cases call with
  | add node =>
    refine .of_lt 0 fun depth _ => ?_
    rw [perform, InPlace.on_refusing (InPlace.on_discard (InPlace.add_on node)), run, ← hcomm]
    cases t.add node <;> rfl
  | pushStatement block statement =>
    refine .of_lt 0 fun depth _ => ?_
    rw [perform, InPlace.on_refusing (InPlace.pushStatement_on block statement), run, hcomm]
  | append statement =>
    refine .of_lt 0 fun depth _ => ?_
    rw [perform, InPlace.on_get_bind, InPlace.on_refusing (InPlace.pushStatement_on t.root statement), run, Tree.append,
      hcomm]
  | replace node replacement =>
    refine .of_lt t.slots.size fun depth hdepth => ?_
    rw [perform, InPlace.on_refusing (InPlace.replace_on h hdepth node replacement), run, hcomm]
  | removeStatement node =>
    refine .of_lt t.slots.size fun depth hdepth => ?_
    rw [perform, InPlace.on_refusing (InPlace.removeStatement_on h hdepth node), run, hcomm]
  | importNode source id =>
    obtain ⟨hlinked, hrooted, hid⟩ := hsource source id rfl
    refine .of_lt (source.weight id) fun depth hdepth => ?_
    have hrun : (InPlace.importNode source depth id).on t = some (InPlace.outcome t (.ok (t.importNode source id))) :=
      (hlinked.imported_root hrooted hid h).runs (fun z hz _ => hroot.ne_of_size_le hz) depth hdepth
    rw [perform, InPlace.on_refusing (InPlace.on_discard hrun), run]
    rfl

end Call

theorem slot?_unrooted (id : Nat) : (unrooted id).slot? x = none := by simp [slot?, unrooted]

theorem linked_unrooted (id : Nat) : (unrooted id).Linked :=
  ⟨by simp [get?, slot?_unrooted], by simp [get?, slot?_unrooted], by simp [parent?, slot?_unrooted]⟩

theorem Linked.withRoot (h : t.Linked) (root : NodeId) : ({ t with root } : Tree).Linked := ⟨h.owns, h.nodup, h.listed⟩

/-- Nothing in the empty program has an owner. -/
theorem parent?_empty (id : Nat) : (Tree.empty id).parent? x = none := by
  refine (parent?_alloc (t := unrooted id) (.block [])).trans ?_
  simp [parent?, slot?_unrooted]

/-- The empty program is linked and has a root. -/
theorem linked_rooted_empty (id : Nat) : (Tree.empty id).Linked ∧ (Tree.empty id).Rooted := by
  have hlink := (linked_unrooted id).relinks_alloc (n := .block []) .nil (by simp)
  exact ⟨(hlink.linked (linked_unrooted id)).withRoot _, ⟨[], (hlink.get? _).trans (if_pos rfl)⟩, parent?_empty id⟩

/-- A copy is made by an import into a tree without nodes. -/
theorem Linked.imported_copy (h : t.Linked) (hroot : t.Rooted) (id : Nat) :
    Imported t (unrooted id) t.root ((unrooted id).importNode t t.root).1 ((unrooted id).importNode t t.root).2 :=
  h.imported_root hroot ((h.mem_preorder_iff hroot).mpr .refl) (linked_unrooted id)

/-- A copy is linked and has a root. -/
theorem Linked.linked_rooted_copy (h : t.Linked) (hroot : t.Rooted) (id : Nat) :
    (t.copy id).Linked ∧ (t.copy id).Rooted := by
  have hi := h.imported_copy hroot id
  refine ⟨hi.linked.withRoot _, ?_, hi.free⟩
  -- the root of the copy has the shape of a block
  obtain ⟨statements, hblock⟩ := hroot.block
  cases hi.mirrors with
  | @node _ _ n m hx hy hshape =>
    obtain rfl := Option.some.inj (hx.symm.trans hblock)
    cases m with
    | block statements' => exact ⟨statements', hy⟩
    | _ => exact absurd (Node.kind_of_shape_eq hshape) (by simp [Node.kind])

/-- A tree that calls can make is linked and has a root. -/
theorem Reachable.linked_rooted (h : Reachable t) : t.Linked ∧ t.Rooted := by
  induction h with
  | empty id => exact linked_rooted_empty id
  | @copy t id h ih => exact ih.1.linked_rooted_copy ih.2 id
  | call h hsource hid ih ihsource =>
    have hfollows := Call.follows ih.1 ih.2 fun source id heq =>
      ⟨(ihsource source id heq).1, (ihsource source id heq).2, hid source id heq⟩
    exact ⟨hfollows.linked, hfollows.rooted⟩

theorem Call.Permitted.sourced (h : call.Permitted) : call.Sourced := fun source id heq =>
  ⟨(h source id heq).1.linked_rooted.1, (h source id heq).1.linked_rooted.2, (h source id heq).2⟩

theorem Reachable.after (h : Reachable t) (hcall : call.Permitted) : Reachable (call.after t) :=
  .call h (fun source id heq => (hcall source id heq).1) fun source id heq => (hcall source id heq).2

/-- Calls can make what permitted calls make. -/
theorem Reachable.calls (h : Reachable t) {calls : List Call} (hcalls : ∀ call ∈ calls, call.Permitted) :
    Reachable (calls.foldl Call.after t) := by
  induction calls generalizing t with
  | nil => exact h
  | cons call rest ih =>
    obtain ⟨hcall, hrest⟩ := List.forall_mem_cons.mp hcalls
    exact ih (h.after hcall) hrest

/-- What permitted calls leave comes after the tree. -/
theorem Reachable.follows_calls (h : Reachable t) {calls : List Call} (hcalls : ∀ call ∈ calls, call.Permitted) :
    t.Follows (calls.foldl Call.after t) := by
  obtain ⟨hlinked, hrooted⟩ := h.linked_rooted
  induction calls generalizing t with
  | nil => exact .refl hlinked hrooted
  | cons call rest ih =>
    obtain ⟨hcall, hrest⟩ := List.forall_mem_cons.mp hcalls
    have hfirst := Call.follows hlinked hrooted hcall.sourced
    exact hfirst.trans (ih (h.after hcall) hrest hfirst.linked hfirst.rooted)

/-- All children that the nodes of an arena list. -/
def listed (t : Tree) : List NodeId :=
  (List.range t.slots.size).flatMap fun p => ((t.get? p).map Node.children).getD []

/-- Every node is listed by its owner only, and the root by none. -/
structure SingleOwner (t : Tree) : Prop where
  children : ∀ p n, t.get? p = some n → ∀ c ∈ n.children, t.contains c = true ∧ t.parent? c = some p
  once : t.listed.Nodup
  owner : ∀ x p, t.parent? x = some p → t.contains p = true ∧ ∃ n, t.get? p = some n ∧ x ∈ n.children
  root : (∃ statements, t.get? t.root = some (.block statements)) ∧ t.parent? t.root = none

/-- No node is listed twice in a linked arena. -/
theorem Linked.nodup_listed (h : t.Linked) : t.listed.Nodup := by
  have howned (p c : NodeId) (hc : c ∈ ((t.get? p).map Node.children).getD []) : t.parent? c = some p := by
    cases hp : t.get? p with
    | none => simp [hp] at hc
    | some n => exact h.owns p n hp c (by simpa [hp] using hc)
  rw [Tree.listed, List.nodup_flatMap]
  refine ⟨fun p _ => ?_, List.nodup_range.imp fun {p q} hne c hp hq => hne ?_⟩
  · cases hp : t.get? p with
    | none => exact .nil
    | some n => exact h.nodup p n hp
  · exact Option.some.inj ((howned p c hp).symm.trans (howned q c hq))

/-- A linked tree with a root has single owners. -/
theorem Linked.singleOwner (h : t.Linked) (hroot : t.Rooted) : t.SingleOwner where
  children p n hget c hc := ⟨contains_of_parent? (h.owns p n hget c hc), h.owns p n hget c hc⟩
  once := h.nodup_listed
  owner x p hp := ⟨h.contains_parent hp, h.listed x p hp⟩
  root := ⟨hroot.block, hroot.free⟩

/-- In every tree that calls can make, nodes have single owners; no call brings a freed name back; the
preorder ends, with the live names whose owners lead to the root, each of them once; and a call in place
ends, with the tree exactly as it was if it is refused. -/
theorem Reachable.single_ownership (h : Reachable t) :
    t.SingleOwner ∧
      (∀ calls : List Call, (∀ call ∈ calls, call.Permitted) → ∀ x < t.slots.size, t.contains x = false →
        (calls.foldl Call.after t).contains x = false) ∧
      (Settles (fun depth => InPlace.visit t depth [] [t.root]) t.preorder ∧ t.preorder.Nodup ∧
        ∀ x, x ∈ t.preorder ↔ t.contains x = true ∧ t.Below x t.root) ∧
      ∀ call : Call, call.Permitted →
        (∃ e, call.run t = .error e ∧ Settles (fun depth => (call.perform depth).on t) (.error e, t)) ∨
          ∃ t', call.run t = .ok t' ∧ Settles (fun depth => (call.perform depth).on t) (.ok (), t') := by
  obtain ⟨hlinked, hrooted⟩ := h.linked_rooted
  refine ⟨hlinked.singleOwner hrooted, fun calls hcalls x hx hdead => ?_, ⟨hlinked.visit_settles hrooted,
    hlinked.nodup_preorder hrooted, fun x => ?_⟩, fun call hcall => ?_⟩
  · rw [← Bool.not_eq_true]
    intro hlive
    rcases (h.follows_calls hcalls).fresh x hlive with hold | hnew
    · exact absurd (hdead.symm.trans hold) (by simp)
    · exact absurd hx (Nat.not_lt.mpr hnew)
  · rw [hlinked.mem_preorder_iff hrooted]
    exact ⟨fun hbelow => ⟨hbelow.contains hrooted.live, hbelow⟩, And.right⟩
  · have hperform := Call.perform_settles hlinked hrooted hcall.sourced
    cases hrun : call.run t with
    | error e =>
      rw [hrun] at hperform
      exact .inl ⟨e, rfl, hperform⟩
    | ok t' =>
      rw [hrun] at hperform
      exact .inr ⟨t', rfl, hperform⟩

/-- A statement was replaced: its name is free for ever, and the program is the block over the other. -/
theorem Reachable.single_ownership_replaced :
    let t := [Call.add (.block []), .pushStatement 0 1, .add (.block []), .replace 1 2].foldl Call.after (.empty 0)
    Reachable t ∧ t.SingleOwner ∧ (t.contains 1 = false ∧ (Call.after t (.add (.block []))).contains 1 = false) ∧
      t.preorder = [0, 2] ∧ t.preorder.Nodup := by
  intro t
  have ht : Reachable t := (Reachable.empty 0).calls (by simp [Call.Permitted])
  obtain ⟨howner, hfreed, ⟨-, hnodup, -⟩, -⟩ := single_ownership ht
  exact ⟨ht, howner, ⟨by decide, hfreed [.add (.block [])] (by simp [Call.Permitted]) 1 (by decide) (by decide)⟩,
    by decide, hnodup⟩

open Classical in
/-- In every tree that calls can make, both traversals end. Whatever kinds are passed over, the walk from the root
comes to the names of the preorder that have no node of such a kind above them, in their order, each of them once and
as the node of its own kind; where none is passed over, it comes to the preorder. -/
theorem Reachable.walk_follows_preorder (h : Reachable t) (skip : NodeKind → Bool) :
    Settles (fun depth => InPlace.walk t skip depth t.root) (t.program.walk skip) ∧
      Settles (fun depth => InPlace.visit t depth [] [t.root]) t.preorder ∧ t.preorder.Nodup ∧
      (t.program.walk skip).map (fun v => (v.1, some v.2)) =
        (t.preorder.filter (t.Shown skip ·)).map (fun x => (x, (t.get? x).map Node.kind)) ∧
      ((∀ kind, skip kind = false) → (t.program.walk skip).map Prod.fst = t.preorder) := by
  obtain ⟨hlinked, hrooted⟩ := h.linked_rooted
  have hpreorder := hlinked.preorder_eq hrooted
  refine ⟨hlinked.walk_settles hrooted.grounded hrooted.live skip, hlinked.visit_settles hrooted,
    hlinked.nodup_preorder hrooted, ?_, fun hnone => ?_⟩
  · rw [hpreorder]
    exact hlinked.walk_eq_filter hrooted.grounded hrooted.live skip (.of_free hrooted.free)
  · rw [hpreorder, Term.ids, funext hnone]

open Classical in
/-- The operand of a negation is passed over, and the statement after it is not. -/
theorem Reachable.walk_follows_preorder_negation :
    let t := [Call.add (.value (.int32 1)), .add (.unary .neg 1), .pushStatement 0 2, .add (.jump .return),
      .pushStatement 0 3].foldl Call.after (.empty 0)
    Reachable t ∧ t.preorder = [0, 2, 1, 3] ∧
      t.program.walk (· = .unary) = [(0, .block), (2, .unary), (3, .jump)] ∧
      t.preorder.filter (t.Shown (· = .unary) ·) = [0, 2, 3] := by
  intro t
  have ht : Reachable t := (Reachable.empty 0).calls (by simp [Call.Permitted])
  have hwalk : t.program.walk (· = .unary) = [(0, .block), (2, .unary), (3, .jump)] := by decide
  have heq := congrArg (List.map Prod.fst) (walk_follows_preorder ht (· = .unary)).2.2.2.1
  rw [hwalk] at heq
  simp only [List.map_map, List.map_id', Function.comp_def] at heq
  exact ⟨ht, by decide, hwalk, heq.symm⟩

end Elementwise.Tree
