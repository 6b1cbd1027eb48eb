import Elementwise.Proofs.Compile.Inversion
import Elementwise.Proofs.Generate.Coverage
import Elementwise.Proofs.Tree.Descent
import Mathlib.Data.List.Zip

/-!
# Nothing is dropped silently

A step of generation without a result has reported an error, and so has a statement that is given up. The
error is counted even where the sink records no more of them, so a compilation that succeeds has generated
everything that stands in its program.
-/

namespace Elementwise

namespace Generate

variable {α : Type} {ctx : Context} {g : Generation}

theorem bind_run {β : Type} (x : GenerateM α) (f : α → GenerateM β) (g : Generation) :
    (x >>= f) g = f (x g).1 (x g).2 := rfl

theorem run_bind_of_none {β : Type} {x : PartM α} {f : α → PartM β} (h : (x.run g).1 = none) :
    (x >>= f).run g = (none, (x.run g).2) := by
  rw [OptionT.run_bind, Option.elimM, bind_run, h]
  rfl

end Generate

/-- What stands in a term stands in its lowered form too, but for the text of a lookup. -/
theorem Lowers.exists_within_right {s t t' : Term} (h : Lowers t t') (hs : s.Within t) :
    (∃ s', s'.Within t' ∧ Lowers s s') ∨ (∃ id name, s = .node id (.value (.string name))) ∧
      ∃ id function, (Tree.externalTy? function).isSome ∧ (Term.node id (.call function [s])).Within t := by
  induction hs generalizing t' with
  | self => exact .inl ⟨t', .self _, h⟩
  | @child c id content hc hs ih =>
    cases h with
    | @lookup _ id' argId function name ty hty =>
      obtain rfl := List.mem_singleton.mp hc
      cases hs with
      | self => exact .inr ⟨⟨argId, name, rfl⟩, id, function, by rw [hty]; rfl, .self _⟩
      | child hargument => simp at hargument
    | @node _ id' _ content' hshape hchildren =>
      obtain ⟨c', hc', hswapped⟩ := exists_opposite hshape.symm hc
      have hpair : (c, c') ∈ content.children.zip content'.children := by
        rw [← List.zip_swap]
        exact List.mem_map_of_mem hswapped
      rcases ih (hchildren c c' hpair) with ⟨s', hs', hlowers⟩ | ⟨htext, id, function, hfunction, hcall⟩
      · exact .inl ⟨s', .child hc' hs', hlowers⟩
      · exact .inr ⟨htext, id, function, hfunction, .child hc hcall⟩

namespace Tree

open Generate

variable {t : Tree} {x : NodeId}

/-- A node that is live and below which every walk ends. -/
def Whole (t : Tree) (x : NodeId) : Prop := t.contains x = true ∧ t.EndsBelow x

theorem Whole.complete (h : t.Whole x) (hlive : t.ChildrenLive) : (t.term x).Complete := h.2.complete hlive h.1

theorem Linked.whole_root (h : t.Linked) (hroot : t.Rooted) : t.Whole t.root :=
  ⟨hroot.live, h.endsBelow hroot.grounded hroot.live⟩

end Tree

end Elementwise
