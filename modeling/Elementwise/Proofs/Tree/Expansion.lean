import Elementwise.Proofs.Tree.Term

/-!
# Expanding compound assignments

A compound assignment `t op= v` expands to `t = t op v`. A term expands to another if some of its compound
assignments are expanded, anywhere in it; the target then stands twice, and nodes may have other names. What
is expanded assigns and steps nothing in its target and its value, and its operator is not a logical one.
-/

namespace Elementwise

/-- The node neither assigns nor steps. -/
def Node.Changeless {α : Type} : Node α → Prop
  | .assign _ _ _ | .crement _ _ _ => False
  | _ => True

/-- A term with some of its compound assignments expanded. -/
inductive Term.Expands : Term → Term → Prop
  | field {id id' name ty inferred inferred' writable writable'} :
      Expands (.node id (.field name ty inferred writable)) (.node id' (.field name ty inferred' writable'))
  | node {id id' content content'} (hshape : content.shape = content'.shape)
      (h : ∀ c c', (c, c') ∈ content.children.zip content'.children → Expands c c') :
      Expands (.node id content) (.node id' content')
  | compound {id id' binaryId op target target₁ target₂ value value'} (hop : op.opClass ≠ .logical)
      (htarget : target.Everywhere Node.Changeless) (hvalue : value.Everywhere Node.Changeless)
      (h₁ : Expands target target₁) (h₂ : Expands target target₂) (h : Expands value value') :
      Expands (.node id (.assign target value (some op)))
        (.node id' (.assign target₁ (.node binaryId (.binary op target₂ value')) none))

namespace Term.Expands

/-- Terms that expand, and what they expand to, are complete. -/
theorem complete {t t' : Term} (h : Expands t t') : t.Complete ∧ t'.Complete := by
  induction h with
  | field => exact ⟨.of_children nofun, .of_children nofun⟩
  | node hshape _ ih =>
    obtain ⟨z, rfl, rfl, hz⟩ := Node.exists_zip_of_forall hshape ih
    constructor
    · refine .of_children fun c hc => ?_
      rw [Node.children_map] at hc
      obtain ⟨p, hp, rfl⟩ := List.mem_map.mp hc
      exact (hz p hp).1
    · refine .of_children fun c hc => ?_
      rw [Node.children_map] at hc
      obtain ⟨p, hp, rfl⟩ := List.mem_map.mp hc
      exact (hz p hp).2
  | compound _ _ _ _ _ _ ih₁ ih₂ ih =>
    constructor
    · exact .of_children (by simp [ih₁.1, ih.1])
    · have hbinary : ∀ id op, Complete (.node id (.binary op _ _)) := fun _ _ =>
        .of_children (by simpa using ⟨ih₂.2, ih.2⟩)
      exact .of_children (by simpa using ⟨ih₁.2, hbinary _ _⟩)

end Term.Expands

end Elementwise
