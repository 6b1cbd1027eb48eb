import Elementwise.Proofs.Perform.Statements
import Mathlib.Data.List.Nodup

/-!
# Names and their cells

Every visible name has a cell of its own. A statement adds names to the innermost scope, if it adds any, and
numbers its cells from the next one on; only a declaration adds a name, or a conditional with a branch that
is one.
-/

namespace Elementwise

namespace Names

/-- Different visible locals have different cells, all before the next one. -/
structure Numbered (names : Names) : Prop where
  nodup : (names.scopes.flatten.map fun entry => entry.2.1).Nodup
  bound : ∀ entry ∈ names.scopes.flatten, entry.2.1 < names.next

theorem Numbered.empty : Numbered {} := ⟨.nil, nofun⟩

theorem Numbered.enter {names : Names} (h : names.Numbered) : names.enter.Numbered := ⟨h.nodup, h.bound⟩

/-- The cell of a name is that of the innermost local of this name. -/
theorem find?_eq (names : Names) (name : String) : names.find? name = names.scopes.flatten.lookup name := by
  unfold find?
  induction names.scopes with
  | nil => rfl
  | cons scope scopes ih =>
    rw [List.findSome?_cons, List.flatten_cons, List.lookup_append, ih]
    cases scope.lookup name <;> rfl

/-- A name that has a cell is visible. -/
theorem mem_of_find? {names : Names} {name : String} {i : Nat} {ty : Ty} (h : names.find? name = some (i, ty)) :
    (name, i, ty) ∈ names.scopes.flatten := by
  rw [find?_eq] at h
  obtain ⟨l₁, l₂, heq, -⟩ := List.lookup_eq_some_iff.mp h
  rw [heq]
  exact List.mem_append_right l₁ List.mem_cons_self

/-- Different names have different cells. -/
theorem Numbered.find?_inj {names : Names} (h : names.Numbered) {name name' : String} {i : Nat} {ty ty' : Ty}
    (hname : names.find? name = some (i, ty)) (hname' : names.find? name' = some (i, ty')) : name = name' := by
  have heq := List.inj_on_of_nodup_map h.nodup (mem_of_find? hname) (mem_of_find? hname') rfl
  exact congrArg Prod.fst heq

/-- Names after a statement: some may be added to the innermost scope, and cells are numbered on. -/
structure Grown (names names' : Names) : Prop where
  next : names.next ≤ names'.next
  scopes : (names.scopes = [] ∧ names'.scopes = []) ∨
    ∃ added scope rest, names.scopes = scope :: rest ∧ names'.scopes = (added ++ scope) :: rest
  numbered : names.Numbered → names'.Numbered

namespace Grown

variable {names names₁ names₂ : Names}

theorem refl (names : Names) : Grown names names := by
  refine ⟨Nat.le_refl _, ?_, id⟩
  cases names.scopes with
  | nil => exact .inl ⟨rfl, rfl⟩
  | cons scope rest => exact .inr ⟨[], scope, rest, rfl, rfl⟩

theorem trans (h : Grown names names₁) (h' : Grown names₁ names₂) : Grown names names₂ := by
  refine ⟨Nat.le_trans h.next h'.next, ?_, fun hn => h'.numbered (h.numbered hn)⟩
  rcases h.scopes with ⟨hnil, hnil₁⟩ | ⟨added, scope, rest, hscopes, hscopes₁⟩
  · rcases h'.scopes with ⟨-, hnil₂⟩ | ⟨_, _, _, hscopes, -⟩
    · exact .inl ⟨hnil, hnil₂⟩
    · rw [hnil₁] at hscopes
      cases hscopes
  · rcases h'.scopes with ⟨hnil, -⟩ | ⟨added', scope', rest', hscopes', hscopes₂⟩
    · rw [hscopes₁] at hnil
      cases hnil
    · obtain ⟨rfl, rfl⟩ := List.cons.inj (hscopes₁.symm.trans hscopes')
      exact .inr ⟨added' ++ added, scope, rest, hscopes, by rw [hscopes₂, List.append_assoc]⟩

/-- A scope that is there stays. -/
theorem scopes_ne_nil (h : Grown names names₁) (hscopes : names.scopes ≠ []) : names₁.scopes ≠ [] := by
  rcases h.scopes with ⟨hnil, -⟩ | ⟨_, _, _, -, hscopes₁⟩
  · exact absurd hnil hscopes
  · rw [hscopes₁]
    exact List.cons_ne_nil _ _

/-- A local is declared. -/
theorem declare (names : Names) (name : String) (ty : Ty) : Grown names (names.declare name ty) := by
  have hnext : (names.declare name ty).next = names.next + 1 := List.length_append
  refine ⟨by omega, ?_, fun hn => ?_⟩
  · unfold Names.declare
    cases names.scopes with
    | nil => exact .inl ⟨rfl, rfl⟩
    | cons scope rest => exact .inr ⟨[(name, names.next, ty)], scope, rest, rfl, rfl⟩
  · obtain ⟨hnodup, hbound⟩ := hn
    cases hscopes : names.scopes with
    | nil =>
      have hdeclare : (names.declare name ty).scopes = [] := by rw [Names.declare, hscopes]
      constructor <;> rw [hdeclare]
      · exact .nil
      · rintro _ ⟨⟩
    | cons scope rest =>
      have hdeclare : (names.declare name ty).scopes = ((name, names.next, ty) :: scope) :: rest := by
        rw [Names.declare, hscopes]
      rw [hscopes] at hnodup hbound
      constructor <;> rw [hdeclare]
      · refine List.nodup_cons.mpr ⟨fun hmem => ?_, hnodup⟩
        obtain ⟨e, he, heq⟩ := List.mem_map.mp hmem
        exact absurd heq (Nat.ne_of_lt (hbound e he))
      · rw [hnext]
        refine List.forall_mem_cons.mpr ⟨Nat.lt_succ_self _, fun e he => ?_⟩
        exact Nat.lt_succ_of_lt (hbound e he)

/-- What is added in a scope of its own is gone after it. -/
theorem inner (h : Grown names.enter names₁) : Grown names names₁.leave ∧ names₁.leave.scopes = names.scopes := by
  have hscopes : names₁.scopes.tail = names.scopes := by
    rcases h.scopes with ⟨hnil, -⟩ | ⟨added, scope, rest, hscopes, hscopes₁⟩
    · cases hnil
    · rw [hscopes₁]
      exact (List.cons.inj hscopes).2.symm
  refine ⟨⟨h.next, ?_, fun hn => ?_⟩, hscopes⟩
  · rw [leave, hscopes]
    exact (refl names).scopes
  · have hn₁ := h.numbered hn.enter
    have hsub : List.Sublist names.scopes.flatten names₁.scopes.flatten := by
      rw [← hscopes]
      cases names₁.scopes with
      | nil => exact List.Sublist.refl _
      | cons scope rest => exact List.sublist_append_right scope _
    refine ⟨?_, fun e he => ?_⟩
    · rw [leave, hscopes]
      exact (hsub.map _).nodup hn₁.nodup
    · rw [leave, hscopes] at he
      exact hn₁.bound e (hsub.subset he)

end Grown

/-- A statement adds names to the innermost scope at most. -/
theorem grown_after (t : Term) (names : Names) : Grown names (names.after t) := by
  induction t using Term.children_induction generalizing names with
  | missing id => exact .refl names
  | node id content ih =>
    cases content with
    | block statements =>
      have hall (ts : List Term) (hts : ∀ t ∈ ts, ∀ names : Names, Grown names (names.after t)) (names : Names) :
          Grown names (names.afterAll ts) := by
        induction ts generalizing names with
        | nil => exact .refl names
        | cons t ts ih =>
          rw [List.forall_mem_cons] at hts
          exact (hts.1 names).trans (ih hts.2 _)
      exact (hall statements ih names.enter).inner.1
    | conditional test thenBranch elseBranch =>
      exact (ih thenBranch (by simp) names).trans (ih elseBranch (by simp) _)
    | loop kind start test step body =>
      have hmaybe {part : Option Term} (hpart : ∀ t, part = some t → ∀ names : Names, Grown names (names.after t))
          (names : Names) : Grown names (names.after? part) := by
        cases part with
        | none => exact .refl names
        | some t => exact hpart t rfl names
      rw [after_loop]
      refine (Grown.trans (Grown.trans (hmaybe (fun t ht => ih t (by simp [ht])) _)
        (ih body (by simp) _)) (hmaybe (fun t ht => ih t (by simp [ht])) _)).inner.1
    | declare ty name start =>
      rw [after]
      split
      · exact .refl names
      · exact .declare names _ ty
    | _ => exact .refl names

/-- Statements add names to the innermost scope at most. -/
theorem grown_afterAll (ts : List Term) (names : Names) : Grown names (names.afterAll ts) := by
  induction ts generalizing names with
  | nil => exact .refl names
  | cons t ts ih => exact (grown_after t names).trans (ih _)

/-- A statement that may be absent adds names to the innermost scope at most. -/
theorem grown_after? (t : Option Term) (names : Names) : Grown names (names.after? t) := by
  cases t with
  | none => exact .refl names
  | some t => exact grown_after t names

/-- A statement other than a declaration leaves the visible names as they are, if no branch is a declaration. -/
theorem scopes_after {t : Term} (hscoped : t.Everywhere Node.Scoped) (hkind : t.kind? ≠ some .declare) (names : Names) :
    (names.after t).scopes = names.scopes := by
  induction t using Term.children_induction generalizing names with
  | missing id => rfl
  | node id content ih =>
    cases content with
    | block statements => exact (grown_afterAll statements names.enter).inner.2
    | conditional test thenBranch elseBranch =>
      have hbranches := hscoped.here
      have hthen := ih thenBranch (by simp) (hscoped.below (by simp))
        (hbranches thenBranch (by simp [Node.branches]))
      have helse := ih elseBranch (by simp) (hscoped.below (by simp))
        (hbranches elseBranch (by simp [Node.branches]))
      rw [after, helse, hthen]
    | loop kind start test step body =>
      rw [after_loop]
      exact (((grown_after? start _).trans (grown_after body _)).trans (grown_after? step _)).inner.2
    | declare => exact absurd rfl hkind
    | _ => rfl

end Names

end Elementwise
