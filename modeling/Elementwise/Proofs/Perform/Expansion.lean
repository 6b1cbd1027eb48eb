import Elementwise.Proofs.Perform.Congruence
import Elementwise.Proofs.Perform.Frame
import Elementwise.Proofs.Perform.Targets
import Elementwise.Proofs.Tree.Expansion

/-!
# An expansion does what the compound assignment does

Performing a target as a value loads its site. If neither the target nor the value changes anything, it does
not matter that the expansion finds the site twice, and loads it before the value instead of after it: cells
and slots are the same. Only the native calls that are made on the way may be made twice.
-/

namespace Elementwise

/-- A term in which nothing is assigned or stepped is no change, and has none among its operands. -/
theorem Term.Everywhere.calm {t : Term} (h : t.Everywhere Node.Changeless) :
    t.isChange = false ∧ t.Everywhere Node.Calm := by
  have hchange {t : Term} (h : t.Everywhere Node.Changeless) : t.isChange = false := by
    cases t with
    | missing id => rfl
    | node id content =>
      have hhere := h.here
      cases content <;> first | rfl | exact hhere.elim
  refine ⟨hchange h, ?_⟩
  induction t using Term.children_induction with
  | missing id =>
    intro id' content hin
    cases hin
  | node id content ih =>
    refine .of_children (fun c hc => hchange (h.below (content.operands_subset hc))) fun c hc => ?_
    exact ih c hc (h.below hc)

/-- Stores with the same cells and the same element. -/
abbrev Store.Same (s s' : Store) : Prop := s.Alike (fun _ _ => True) s'

namespace Store.Same

variable {s₁ s₂ s₃ : Store}

theorem symm (h : s₁.Same s₂) : s₂.Same s₁ := ⟨h.cells.symm, h.element.symm, trivial⟩

theorem trans (h : s₁.Same s₂) (h' : s₂.Same s₃) : s₁.Same s₃ :=
  ⟨h'.cells.trans h.cells, h'.element.trans h.element, trivial⟩

end Store.Same

/-- Actions that end in the same way on stores with the same cells and the same element. -/
abbrev Act.Same {α : Type} (x y : Act α) : Prop := Act.Alike (fun _ _ => True) x y

/-- An action that changes no cell and no slot. -/
def Act.Changeless {α : Type} (x : Act α) : Prop := ∀ s a s₁, x s = .value a s₁ → s.Same s₁

/-- What only computes changes nothing. -/
theorem Act.Shows.changeless {α β : Type} {x : Act α} {Q : Store → α → β → Prop} {y : Store → Eval β}
    (h : ∀ s, Act.Shows s (Q s) x (y s)) : x.Changeless := by
  intro s a s₁ hx
  have hshows := h s s.calls
  rw [show ({ s with calls := s.calls } : Store) = s from rfl, hx] at hshows
  generalize y s s.calls = answer at hshows
  cases hshows with
  | value => exact ⟨rfl, rfl, trivial⟩

/-- Related actions on the same store: a value on one side is a value on the other. -/
theorem Act.Alike.value {α : Type} {x y : Act α} (h : Act.Same x y) {s s' : Store} (hs : s.Same s') {a : α} {s₁ : Store}
    (hx : x s = .value a s₁) : ∃ s₁', y s' = .value a s₁' ∧ s₁.Same s₁' := by
  have hresult := h.alike s s' hs
  rw [hx] at hresult
  generalize y s' = result at hresult
  cases hresult with
  | value h => exact ⟨_, rfl, h⟩

namespace Perform

variable {w : World} {names : Names}

/-- What is loaded, without a change. -/
theorem exists_load (site : Site) (s : Store) : ∃ r, load .lazy site s = .value r s := by
  cases site with
  | whole base => exact ⟨_, rfl⟩
  | component base loaded index => exact ⟨_, rfl⟩

/-- Performing a target as a value loads its site. -/
theorem referent_of_place (t : Term) {s s₁ : Store} {site : Site} (h : place .lazy w names t s = .value site s₁) :
    referent .lazy w names t s = load .lazy site s₁ := by
  induction t using Term.children_induction generalizing s s₁ site with
  | missing id => cases h
  | node id content ih =>
    cases content with
    | localName name =>
      rw [place, local?] at h
      rw [referent, referentNode, local?]
      generalize names.find? name = found at h
      cases found with
      | none => cases h
      | some cell =>
        cases h
        rfl
    | field name ty inferred writable =>
      rw [place, entry] at h
      rw [referent, referentNode, entry]
      generalize w.registry.get? name = found at h
      cases found with
      | none => cases h
      | some e =>
        cases h
        rfl
    | unpack array row column =>
      rw [place_unpack] at h
      obtain ⟨base, s₂, harray, h⟩ := Act.bind_eq_value h
      have hreferent := ih array (by simp) harray
      cases base with
      | component => cases h
      | whole base =>
        change (position pure (s₂.load base).ty _ _ >>= fun i => pure (Site.component base (s₂.load base) i)) s₂ = _ at h
        obtain ⟨i, s₃, hposition, h⟩ := Act.bind_eq_value h
        cases h
        rw [referent_unpack, Act.bind_apply, hreferent]
        change (position pure (s₂.load base).ty _ _ >>= component (s₂.load base)) s₂ = _
        rw [Act.bind_apply, hposition]
        rfl
    | _ => cases h

/-- A compound assignment and its expansion. The target stands for the same site when it is performed again,
and the value changes nothing, so what is loaded before it is what is loaded after it. -/
theorem same_compound {op : BinaryOp} (hop : op.opClass ≠ .logical) {binaryId : NodeId}
    {target target₁ target₂ value value' : Term} (htarget : target.Everywhere Node.Changeless)
    (hvalue : value.Everywhere Node.Changeless) (h₁ : Act.Same (place .lazy w names target) (place .lazy w names target₁))
    (h₂ : Act.Same (referent .lazy w names target) (referent .lazy w names target₂))
    (h : Act.Same (referent .lazy w names value) (referent .lazy w names value')) :
    Act.Same (referentNode .lazy w names (.assign target value (some op)))
      (referentNode .lazy w names (.assign target₁ (.node binaryId (.binary op target₂ value')) none)) := by
  have hplace : (place .lazy w names target).Changeless :=
    Act.Shows.changeless fun s => shows_place w target htarget.calm.2 names s
  have hquiet : (referent .lazy w names value).Changeless :=
    Act.Shows.changeless fun s => quiet_of_calm w value hvalue.calm.1 hvalue.calm.2 names s
  constructor
  intro s s' hs
  rw [referentNode, referentNode, referent, referentNode, if_neg hop]
  simp only [Generate.pass_lazy, pure_bind, bind_assoc]
  have hsite := h₁.alike s s' hs
  rw [Act.bind_apply, Act.bind_apply]
  generalize hleft : place .lazy w names target s = result at hsite
  generalize place .lazy w names target₁ s' = result' at hsite
  cases hsite with
  | fault hs => exact .fault hs
  | stuck => exact .stuck
  | @value site s₁ s₁' hs₁ =>
    -- the target once more, now as a value
    obtain ⟨s₂, hagain, hs₂⟩ := Act.Alike.value (((Term.Alike.refl target).place names)) (hplace s site s₁ hleft) hleft
    obtain ⟨r, hload⟩ := exists_load site s₂
    have hread := (referent_of_place target hagain).trans hload
    obtain ⟨s₂', hread', hs₂'⟩ := h₂.value hs₁ hread
    dsimp only
    rw [Act.bind_apply, Act.bind_apply, hread']
    dsimp only
    rw [Act.bind_apply]
    -- the value, before it is loaded on one side and after on the other
    have hs₁₂ : s₁.Same s₂' := hs₂.trans hs₂'
    have hresult := h.alike s₁ s₂' hs₁₂
    generalize hleft' : referent .lazy w names value s₁ = result at hresult
    generalize referent .lazy w names value' s₂' = result' at hresult
    cases hresult with
    | fault hs => exact .fault hs
    | stuck => exact .stuck
    | @value a s₃ s₃' hs₃ =>
      have hs₂₃ : s₂.Same s₃ := hs₂.symm.trans (hquiet s₁ a s₃ hleft')
      have hself : Act.Same (load .lazy site) (load .lazy site) := inferInstance
      obtain ⟨s₄, hload', _⟩ := hself.value hs₂₃ hload
      obtain ⟨r', hloads⟩ := exists_load site s₃
      rw [← (Result.value.inj (hload'.symm.trans hloads)).1] at hloads
      have hrest : Act.Same (operate op r a >>= fun a => assign .lazy none site a)
        (operate op r a >>= fun a => assign .lazy none site a) := inferInstance
      have hassign : assign .lazy (some op) site a s₃ = (operate op r a >>= fun a => assign .lazy none site a) s₃ := by
        rw [assign_eq, revised, bind_assoc, Act.bind_apply, hloads]
        simp only [bind_assoc, assign_eq, revised]
      dsimp only
      rw [hassign]
      exact hrest.alike s₃ s₃' hs₃

end Perform

/-- A term and what it expands to do the same, wherever they stand. -/
theorem Term.Expands.alike {t t' : Term} (h : t.Expands t') (w : World) : t.Alike (fun _ _ => True) .lazy w t' := by
  induction h with
  | @field id id' name ty inferred inferred' writable writable' =>
    have hsame : Term.Alike (fun _ _ => True) .lazy w (.node id (.field name ty inferred writable))
      (.node id (.field name ty inferred writable)) := .refl _
    exact ⟨rfl, rfl, fun _ => rfl, hsame.referent, hsame.place, hsame.exec⟩
  | node hshape _ ih => exact .node hshape ih
  | @compound id id' binaryId op target target₁ target₂ value value' hop htarget hvalue _ _ _ ih₁ ih₂ ih =>
    have hsame (names : Names) : Act.Same (Perform.referentNode .lazy w names (.assign target value (some op)))
        (Perform.referentNode .lazy w names (.assign target₁ (.node binaryId (.binary op target₂ value')) none)) :=
      Perform.same_compound hop htarget hvalue (ih₁.place names) (ih₂.referent names) (ih.referent names)
    exact ⟨rfl, rfl, fun _ => rfl, hsame, fun _ => inferInstanceAs (Act.Same Act.stuck Act.stuck),
      fun fuel names s s' hs => .after (hsame names) hs fun _ s s' hs => .done hs⟩

end Elementwise
