import Elementwise.Proofs.Code.Written
import Elementwise.Proofs.Compile.Sound

/-!
# The slots of a compiled program

The registry of a compiled program has each field once, and its code writes the slots of writable entries only, as
long as the inline functions of the library do. So a run marks no other slot as written.
-/

namespace Elementwise

namespace Tree

variable {t : Tree} {map : SourceMap} {target : Target} {options : CompileOptions} {exe : Executable}

section

variable (h : t.compile map target options = .ok exe)

include h

/-- The registry of a compiled program records uses of fields. -/
theorem records_of_compile : ∃ uses, exe.registry.Records uses := by
  obtain ⟨-, hregistry, -, -⟩ := noError_of_compile h
  rw [hregistry, frontEnd]
  rw [registered]
  exact ⟨_, (Registry.build_records _ _ _ _).1⟩

/-- The registry of a compiled program names no field twice. -/
theorem names_nodup_of_compile : (exe.registry.list.map Entry.name).Nodup := by
  obtain ⟨uses, hrecords⟩ := records_of_compile h
  exact hrecords.list_names ▸ hrecords.nodup

/-- A compiled program writes slots of writable entries only, if the inline functions do. -/
theorem writes_of_compile (hlibrary : options.library.KeepsTo exe.registry) :
    ∀ slot src, .write slot src ∈ Instr.partsAll exe.program.code.body →
      ∃ e, exe.registry.at? slot = some e ∧ e.writable = true := by
  obtain ⟨-, hregistry, -, hcompile⟩ := noError_of_compile h
  obtain ⟨uses, hrecords⟩ := records_of_compile h
  rw [Code.code_of_compile hcompile]
  apply Code.writes_optimize
  intro slot src hmem
  rw [hregistry] at hrecords hlibrary ⊢
  rw [frontEnd] at hmem hrecords hlibrary ⊢
  obtain ⟨e, he, -, hwritable⟩ :=
    (Code.registered_generate (t.context map target options) hrecords.numbered hlibrary _ _ _ hmem).2 slot src rfl
  exact ⟨e, he, hwritable⟩

/-- What a compiled program has written on an element is writable, if the inline functions keep to the registry. -/
theorem writable_of_written (hlibrary : options.library.KeepsTo exe.registry) {values : Array Value}
    {coord : Option Coord} {final : ElementState} {calls : List NativeCall}
    (hends : exe.program.EndsWith (.start values coord) ⟨none, final, calls⟩) {slot : Nat} {e : Entry}
    (he : exe.registry.at? slot = some e) (hwritten : final.written[slot]? = some true) : e.writable = true := by
  by_contra hreadOnly
  -- a slot that no instruction writes is marked as it was at the start, as not written
  have hunwritten := (hends.evolves (writes_of_compile h hlibrary)).written slot fun hwrites => by
    obtain ⟨e', he', hwritable⟩ := hwrites
    exact hreadOnly (Option.some.inj (he'.symm.trans he) ▸ hwritable)
  rw [hwritten] at hunwritten
  simp [ElementState.start, Array.getElem?_replicate] at hunwritten

end

end Tree

end Elementwise
