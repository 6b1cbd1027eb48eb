import Elementwise.Proofs.Compile.Performs
import Elementwise.Proofs.Perform.ByValue
import Elementwise.Proofs.Perform.InPlace

/-!
# When compiled programs read by value and replace in place

A compiled program reads a bare local late and replaces a component of a field in what was loaded early.
Neither shows unless an operand assigns what an earlier operand reads, or what is assigned to a component
assigns its field; programs without either run as if operands were read by value, and components replaced
in place. Each condition is needed: one program for each shows what happens without it.
-/

namespace Elementwise

namespace Tree

variable {t : Tree} {map : SourceMap} {target : Target} {options : CompileOptions} {e : Executable}

/-- Where other texts are seen after a tree was compiled and run than after it was performed, the compiled program does
not come to the end that the tree is performed to. -/
theorem exists_ending_of_texts {t : Tree} {δ : Discipline} {values : Array Value} (texts texts' : List String)
    (h : (t.compile (.empty t) .points {}).toOption.map (fun e =>
      (Ending.seen? ElementState.texts (e.program.run 0 (.start values none)).ending?,
        Ending.seen? ElementState.texts
          (Perform.exec δ ⟨e.registry, {}⟩ 0 t.program {} { element := .start values none }).ending?)) =
      some (some texts, some texts')) (hne : texts ≠ texts') :
    ∃ e ending, t.compile (.empty t) .points {} = .ok e ∧
      t.program.PerformsTo δ ⟨e.registry, {}⟩ (.start values none) ending ∧
      ¬e.program.EndsWith (.start values none) ending := by
  obtain ⟨e, hcompile, hseen⟩ := exists_ok_of_map h
  obtain ⟨hrun, hperform⟩ := Prod.mk.inj hseen
  obtain ⟨s, calls, hends, htexts⟩ := Ending.exists_of_seen? hrun
  obtain ⟨s', calls', hends', htexts'⟩ := Ending.exists_of_seen? hperform
  refine ⟨e, _, hcompile, ⟨0, hends'⟩, fun hsame => hne ?_⟩
  have helement : s = s' := congrArg Ending.element (Program.EndsWith.unique ⟨0, hends⟩ hsame)
  rw [← htexts, helement, htexts']

/-- If no operand is a local that an operand evaluated after it assigns, a compiled program comes to the end
that its tree comes to when operands are used by value, from left to right. -/
theorem operands_used_by_value (h : t.compile map target options = .ok e) (hlibrary : options.library = .standard)
    (hlevel : options.level = .none ∨ t.program.Everywhere Node.Scoped) (hseparate : t.program.Everywhere Node.Separate)
    (state : ElementState) (ending : Ending) :
    e.program.EndsWith state ending ↔
      t.program.PerformsTo .eager ⟨e.registry, options.custom⟩ state ending := by
  have hregistry : (World.mk e.registry options.custom).registry.Numbered := (compile_eq_ok h).1
  rw [(endsWith_iff_performsTo h hlibrary hlevel state).2 ending, Term.PerformsTo, Term.PerformsTo]
  simp only [Perform.exec_eager hregistry t.program hseparate]

/-- `int32 x = 1; @a = (x = 5) + x;`, where the later operand reads what the earlier one assigns. -/
def assignThenRead : Tree where
  id := 0
  slots := #[
    some ⟨.block [3, 9], none⟩,
    some ⟨.localName "x", some 3⟩,
    some ⟨.value (.int32 1), some 3⟩,
    some ⟨.declare .int32 1 (some 2), some 0⟩,
    some ⟨.field "a" .int32 false true, some 9⟩,
    some ⟨.localName "x", some 6⟩,
    some ⟨.assign 5 10 none, some 8⟩,
    some ⟨.localName "x", some 8⟩,
    some ⟨.binary .add 6 7, some 9⟩,
    some ⟨.assign 4 8 none, some 0⟩,
    some ⟨.value (.int32 5), some 6⟩]
  root := 0

/-- The term of the tree. -/
theorem assignThenRead_program : assignThenRead.program = .node 0 (.block [
    .node 3 (.declare .int32 (.node 1 (.localName "x")) (some (.node 2 (.value (.int32 1))))),
    .node 9 (.assign (.node 4 (.field "a" .int32 false true))
      (.node 8 (.binary .add (.node 6 (.assign (.node 5 (.localName "x")) (.node 10 (.value (.int32 5))) none))
        (.node 7 (.localName "x")))) none)]) := rfl

/-- An assignment inside an operand shows in the operands after it, as by value. -/
theorem operands_used_by_value_assignThenRead :
    ∃ e, assignThenRead.compile (.empty assignThenRead) .points {} = .ok e ∧
      assignThenRead.program.Everywhere Node.Separate ∧
      ∀ state ending, e.program.EndsWith state ending ↔
        assignThenRead.program.PerformsTo .eager ⟨e.registry, {}⟩ state ending := by
  have hscoped : assignThenRead.program.Everywhere Node.Scoped := by
    rw [assignThenRead_program]
    simp [Term.Everywhere.iff_children, Node.children, Node.Scoped, Node.branches]
  have hseparate : assignThenRead.program.Everywhere Node.Separate := by
    rw [assignThenRead_program]
    simp [Term.Everywhere.iff_children, Node.children, Node.Separate, Term.Before, Term.bare?]
  have hok : (assignThenRead.compile (.empty assignThenRead) .points {}).isOk = true := by decide +kernel
  obtain ⟨e, h⟩ := exists_ok_of_isOk hok
  exact ⟨e, h, hseparate, operands_used_by_value h rfl (.inr hscoped) hseparate⟩

/-- `int32 x = 1; @a = x + (x = 5);`, where the later operand assigns what the earlier one reads. -/
def readThenAssign : Tree :=
  { assignThenRead with slots := assignThenRead.slots.setIfInBounds 8 (some ⟨.binary .add 7 6, some 9⟩) }

/-- The sum is ten, since the local is read after it was assigned; by value it is six. -/
theorem readThenAssign_not_by_value :
    ∃ e ending, readThenAssign.compile (.empty readThenAssign) .points {} = .ok e ∧
      readThenAssign.program.PerformsTo .eager ⟨e.registry, {}⟩ (.start #[.int32 0] none) ending ∧
      ¬e.program.EndsWith (.start #[.int32 0] none) ending :=
  exists_ending_of_texts ["10"] ["6"] (by decide +kernel) (by decide)

/-- If neither the indices of a component of a field nor what is assigned to it assign the field, a compiled
program comes to the end that its tree comes to when components are replaced in place. Such a replacement
changes the addressed component and nothing else, in a local and in a field alike. -/
theorem components_replaced_in_place (h : t.compile map target options = .ok e) (hlibrary : options.library = .standard)
    (hlevel : options.level = .none ∨ t.program.Everywhere Node.Scoped)
    (hundisturbed : t.program.Everywhere Node.Undisturbed) :
    (∀ state ending, e.program.EndsWith state ending ↔
      t.program.PerformsTo .direct ⟨e.registry, options.custom⟩ state ending) ∧
    ∀ base loaded index value σ, ∃ σ', Perform.store .direct (.component base loaded index) value σ = .value () σ' ∧
      σ.Replaces base (σ.read index) (σ.read value) σ' := by
  refine ⟨fun state ending => ?_, fun base loaded index value σ => Perform.store_replaces rfl base loaded index value σ⟩
  have hregistry : (World.mk e.registry options.custom).registry.Numbered := (compile_eq_ok h).1
  rw [(endsWith_iff_performsTo h hlibrary hlevel state).2 ending, Term.PerformsTo, Term.PerformsTo]
  simp only [Perform.exec_direct hregistry t.program hundisturbed]

/-- `vec3i@v[0] = (vec3i@u[1] = 5);`, where a component of one field is assigned what a component of another one is. -/
def twoFields : Tree where
  id := 0
  slots := #[
    some ⟨.block [8], none⟩,
    some ⟨.field "v" (.vector .int32 3) false true, some 3⟩,
    some ⟨.value (.int32 0), some 3⟩,
    some ⟨.unpack 1 2 none, some 8⟩,
    some ⟨.field "u" (.vector .int32 3) false true, some 6⟩,
    some ⟨.value (.int32 1), some 6⟩,
    some ⟨.unpack 4 5 none, some 7⟩,
    some ⟨.assign 6 9 none, some 8⟩,
    some ⟨.assign 3 7 none, some 0⟩,
    some ⟨.value (.int32 5), some 7⟩]
  root := 0

/-- The term of the tree. -/
theorem twoFields_program : twoFields.program = .node 0 (.block [
    .node 8 (.assign (.node 3 (.unpack (.node 1 (.field "v" (.vector .int32 3) false true)) (.node 2 (.value (.int32 0))) none))
      (.node 7 (.assign (.node 6 (.unpack (.node 4 (.field "u" (.vector .int32 3) false true)) (.node 5 (.value (.int32 1))) none))
        (.node 9 (.value (.int32 5))) none)) none)]) := rfl

/-- Two components are assigned in place, one inside the other. -/
theorem components_replaced_in_place_twoFields :
    ∃ e, twoFields.compile (.empty twoFields) .points {} = .ok e ∧
      twoFields.program.Everywhere Node.Undisturbed ∧
      ∀ state ending, e.program.EndsWith state ending ↔
        twoFields.program.PerformsTo .direct ⟨e.registry, {}⟩ state ending := by
  have hscoped : twoFields.program.Everywhere Node.Scoped := by
    rw [twoFields_program]
    simp [Term.Everywhere.iff_children, Node.children, Node.Scoped, Node.branches]
  have hundisturbed : twoFields.program.Everywhere Node.Undisturbed := by
    rw [twoFields_program]
    simp [Term.Everywhere.iff_children, Node.children, Node.Undisturbed, Term.indices, Term.root?, Term.Spares, Node.Spares]
  have hok : (twoFields.compile (.empty twoFields) .points {}).isOk = true := by decide +kernel
  obtain ⟨e, h⟩ := exists_ok_of_isOk hok
  exact ⟨e, h, hundisturbed, (components_replaced_in_place h rfl (.inr hscoped) hundisturbed).1⟩

/-- `vec3i@v[0] = (vec3i@v[1] = 5);`, where a component is assigned what another one of the same field is. -/
def oneField : Tree :=
  { twoFields with slots := twoFields.slots.setIfInBounds 4 (some ⟨.field "v" (.vector .int32 3) false true, some 6⟩) }

/-- The inner assignment is lost, since the field was loaded before it; in place it stays. -/
theorem oneField_not_in_place :
    ∃ e ending, oneField.compile (.empty oneField) .points {} = .ok e ∧
      oneField.program.PerformsTo .direct ⟨e.registry, {}⟩ (.start #[.vec3i 1 2 3] none) ending ∧
      ¬e.program.EndsWith (.start #[.vec3i 1 2 3] none) ending :=
  exists_ending_of_texts ["[5, 2, 3]"] ["[5, 5, 3]"] (by decide +kernel) (by decide)

end Tree

end Elementwise
