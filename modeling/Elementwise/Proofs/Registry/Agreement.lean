import Elementwise.Proofs.Generate.Ensures

/-!
# The registry and the code agree on slots

A registry that was built without an error has an entry for every use of a field in the program, with the
type of the use, and a writable one if the use writes. Generation looks up the same uses, so it finds a slot for
each of them, and all code that it adds names these slots with the types of their entries. The code of an inline
function is the function's own: one that writes a slot by number is not held back.
-/

namespace Elementwise

/-- What generation says of a use of a field that has no slot: the field is not registered, has another type, or
is only read. -/
def Diagnostic.DeniesSlot (target : Target) (d : Diagnostic) : Prop :=
  ∃ name rest, d.message = target.fieldName ++ " '@" ++ name ++ "'" ++ rest ∧
    (rest = " is not registered" ∨ d.kind = .typeConflict ∨ rest = " is read-only")

/-- Messages that are not about fields say nothing of their slots. -/
theorem Diagnostic.Plain.not_deniesSlot {d : Diagnostic} (h : d.Plain) (target : Target) : ¬ d.DeniesSlot target := by
  rintro ⟨name, rest, hmessage, -⟩
  refine h.2 target ?_
  simp [hmessage, Target.fieldOpening]

/-- A use of a field has an entry: of its type, and a writable one if the use writes. -/
def FieldUse.Covered (r : Registry) (u : FieldUse) : Prop :=
  ∃ e, r.get? u.name = some e ∧ e.ty = u.ty ∧ (u.writable = true → e.writable = true)

/-- The slot of a covered use is found. -/
theorem Generate.partReports_covered {P : Diagnostic → Prop} {ctx : Context} {u : FieldUse}
    (h : u.Covered ctx.registry) {write : Bool} (hwrite : write = true → u.writable = true) :
    PartReports P (fieldSlot ctx u.id u.name u.ty write) := by
  obtain ⟨e, hget, hty, hwritable⟩ := h
  have hallowed : (write && !e.writable) = false := by
    cases write with
    | false => rfl
    | true => simp [hwritable (hwrite rfl)]
  have hslot : fieldSlot ctx u.id u.name u.ty write = pure e.index := by
    simp [fieldSlot, hget, hty, hallowed]
  rw [hslot]
  exact .pure _

namespace Registry

open FieldUse

/-- If nothing is wrong with any of the uses that were recorded, all of them are covered. -/
theorem Records.covered {r : Registry} {target : Target} {spanOf : NodeId → Option Span} {uses : List FieldUse}
    (h : r.Records (uses.filter (fits target))) (hnone : complaints target spanOf uses = []) {u : FieldUse}
    (hu : u ∈ uses) : u.Covered r := by
  have hcomplaint : complaint? target spanOf (uses.filter (fits target)) u = none :=
    List.filterMap_eq_nil_iff.mp hnone u hu
  rcases complaint?_cases target spanOf hu with
    ⟨-, heq⟩ | ⟨hfits, first, hfirst, heq⟩
  · exact absurd (hcomplaint.symm.trans heq) (by simp)
  · have hmem : u ∈ uses.filter (fits target) := List.mem_filter.mpr ⟨hu, hfits⟩
    -- the use is recorded, so its name has an entry
    obtain ⟨e, he⟩ : ∃ e, r.get? u.name = some e := by
      apply Table.mem_names_iff.mp
      rw [h.names, List.mem_eraseDups]
      exact List.mem_map_of_mem hmem
    obtain ⟨-, hty, hwritable⟩ := h.entry u.name e he
    have hfirstTy : first = u.ty := by
      by_contra hne
      rw [hcomplaint, if_neg hne] at heq
      cases heq
    have htypes : e.ty = first := Option.some.inj (hty.symm.trans hfirst)
    exact ⟨e, he, htypes.trans hfirstTy, fun hwrites => hwritable.mpr ⟨u, hmem, rfl, hwrites⟩⟩

/-- A registry that was built without an error covers every use in its program. -/
theorem build_covers {t : Tree} {target : Target} {map : SourceMap} {sink : Sink}
    (h : (build t target map sink).2.errors = sink.errors) :
    ∀ u ∈ t.program.fieldUses false, u.Covered (build t target map sink).1 := by
  obtain ⟨hrecords, hsink⟩ := build_records t target map sink
  rw [hsink, Sink.errors_extend fun d hd => (error_of_mem_complaints hd).1] at h
  have hnone : complaints target (map.lookup t) (t.program.fieldUses false) = [] :=
    List.eq_nil_of_length_eq_zero (by omega)
  exact fun u hu => hrecords.covered hnone hu

end Registry

namespace Tree

/-- If the registry of a tree was built without an error, generating the code of the tree against it never says
that a field is not registered, is of another type or is only read. If the inline functions of the library keep to
the registry, so does the code: each slot that it reads or writes is below the number of entries, the register has
the type of the entry there, and what is written is writable. -/
theorem registry_agrees (t : Tree) (target : Target) (map : SourceMap) (sink : Sink)
    (hbuild : (Registry.build t target map sink).2.errors = sink.errors) (library : Library) (custom : CustomData)
    (spanOf : NodeId → Option Span) (before : Sink) :
    let r := (Registry.build t target map sink).1
    let generated := Code.generate ⟨r, library, custom, spanOf⟩ t.program before
    Sink.Gathers (¬ Diagnostic.DeniesSlot target ·) before generated.2 ∧
    (library.KeepsTo r →
      (∀ dst slot, .read dst slot ∈ Instr.partsAll generated.1.body →
        slot < r.size ∧ ∃ e, r.at? slot = some e ∧ generated.1.regs[dst]? = some e.ty) ∧
      ∀ slot src, .write slot src ∈ Instr.partsAll generated.1.body →
        slot < r.size ∧ ∃ e, r.at? slot = some e ∧ generated.1.regs[src]? = some e.ty ∧ e.writable = true) := by
  intro r generated
  have hsize {slot : Nat} {e : Entry} (he : r.at? slot = some e) : slot < r.size := by
    obtain ⟨entry, hentry, -⟩ := Option.map_eq_some_iff.mp he
    exact (List.getElem?_eq_some_iff.mp hentry).1
  refine ⟨Generate.reports_of_uses (fun d hd => hd.not_deniesSlot target)
    (fun u write hu hwrite => Generate.partReports_covered hu hwrite) t.program (Registry.build_covers hbuild) _,
    fun hlibrary => ?_⟩
  have hregistered : Instr.AllRegistered r generated.1.regs generated.1.body :=
    Code.registered_generate ⟨r, library, custom, spanOf⟩ (Registry.build_keeps t target map sink).1 hlibrary t.program
      before
  constructor
  · intro dst slot hmem
    obtain ⟨e, he, hty⟩ := (hregistered _ hmem).1 dst slot rfl
    exact ⟨hsize he, e, he, hty⟩
  · intro slot src hmem
    obtain ⟨e, he, hty, hwritable⟩ := (hregistered _ hmem).2 slot src rfl
    exact ⟨hsize he, e, he, hty, hwritable⟩

/-- An integer field is assigned to a floating one. -/
def integerAssigned : Tree :=
  [Call.add (.field "a" .float false false), .add (.field "b" .int32 false false), .add (.assign 1 2 none),
    .pushStatement 0 3].foldl Call.after (.empty 0)

/-- Where an integer is assigned to a floating field, the code writes its slot, which is writable, from a register
of the type of the field. -/
theorem registry_agrees_converted :
    let built := Registry.build integerAssigned .points (.empty integerAssigned) {}
    let generated := Code.generate ⟨built.1, .standard, {}, fun _ => none⟩ integerAssigned.program {}
    built.2.errors = 0 ∧ Sink.Gathers (¬ Diagnostic.DeniesSlot .points ·) {} generated.2 ∧
      Instr.write 0 1 ∈ Instr.partsAll generated.1.body ∧
      ∃ e, built.1.at? 0 = some e ∧ generated.1.regs[1]? = some e.ty ∧ e.writable = true := by
  have hparts (library : Library) : (Instr.partsAll (Code.generate ⟨(Registry.build integerAssigned .points
      (.empty integerAssigned) {}).1, library, {}, fun _ => none⟩ integerAssigned.program {}).1.body)[2]? =
        some (Instr.write 0 1) := rfl
  have hwrite := List.mem_of_getElem? (hparts .standard)
  have hbuild : (Registry.build integerAssigned .points (.empty integerAssigned) {}).2.errors = 0 := by decide
  -- what was computed is all that is needed of this tree
  generalize integerAssigned = t at *
  obtain ⟨hreports, hslots⟩ := registry_agrees t .points (.empty t) {} hbuild .standard {} (fun _ => none) {}
  exact ⟨hbuild, hreports, hwrite, ((hslots (Library.standard_keepsTo _)).2 0 1 hwrite).2⟩

/-- The code of an inline function that writes a slot by its number. -/
def writesSlot (slot : Nat) : Generator := fun _ _ => do
  let v ← Builder.int 1
  Builder.writeSlot slot v
  return v

/-- Where such a function is called, the registry is built and the code generated without an error, and the code
writes a slot that the registry does not have. -/
theorem registry_agrees_not_inline :
    let t := [Call.add (.call "rogue" []), .pushStatement 0 1].foldl Call.after (.empty 0)
    let built := Registry.build t .points (.empty t) {}
    let library := Library.add {} (Group.push { name := "rogue" } { params := [], ret := .int32 } (.emitted (writesSlot 99)))
    let generated := Code.generate ⟨built.1, library, {}, fun _ => none⟩ t.program {}
    Reachable t ∧ built.2.errors = 0 ∧ generated.2.errors = 0 ∧
      Instr.write 99 0 ∈ Instr.partsAll generated.1.body ∧ ¬ 99 < built.1.size := by
  intro t built library generated
  have hparts : (Instr.partsAll generated.1.body)[1]? = some (.write 99 0) := rfl
  exact ⟨(Reachable.empty 0).calls (by simp [Call.Permitted]), by decide, rfl, List.mem_of_getElem? hparts, by decide⟩

end Tree

end Elementwise
