import Elementwise.Proofs.Compile.Inversion
import Elementwise.Proofs.Generate.Sound
import Elementwise.Proofs.Optimize.Typing

/-!
# Compiled programs are type sound

The code of a compilation that succeeds is sound before it is optimised, and its instructions still fit
their registers afterwards. So on an element whose fields have their registered types, registers and
fields hold values of their types at every step of every run, whatever the level of optimisation.
-/

namespace Elementwise

open Builder

/-- The types of the fields, by slot. -/
def Registry.slotTypes (r : Registry) : List Ty := r.list.map Entry.ty

theorem Registry.length_slotTypes (r : Registry) : r.slotTypes.length = r.size := by
  simp [slotTypes, list, size, Table.values, Table.size]

/-- The type of an entry is that of its slot. -/
theorem Registry.Numbered.slotTypes_getElem? {r : Registry} (h : r.Numbered) {name : String} {entry : Entry}
    (hget : r.get? name = some entry) : r.slotTypes[entry.index]? = some entry.ty := by
  rw [slotTypes, List.getElem?_map, h.list_getElem? hget, Option.map_some]

/-- A program is made of the code that it was compiled from. -/
theorem Code.code_of_compile {c : Code} {p : Program} (h : c.compile = .ok p) : p.code = c := by
  unfold compile at h
  split at h
  · rw [← Except.ok.inj h]
  · cases h

/-- A run of a program whose code fits stays within the types of registers and slots. -/
theorem Code.AllFit.staysTyped {slots : List Ty} {typed : Prop} {p : Program} (h : p.code.AllFit ⟨slots, typed⟩)
    (htyped : typed) (fuel : Nat) {state : ElementState} (hstate : state.Holds slots) :
    (∀ s ∈ p.steps fuel state, s.Typed p.code.regs slots) ∧
      ∀ flow m, p.run fuel state = .done flow m → m.Typed p.code.regs slots := by
  have hstart : (p.start state).Typed p.code.regs slots := by
    refine ⟨fun r ty hty => ⟨.zero ty, ?_, Value.hasType_zero ty⟩, hstate⟩
    simp only [Program.start, Array.getElem?_map, hty, Option.map_some]
  obtain ⟨hsteps, hpost⟩ := Instr.tracedAll_staysTyped htyped fuel h (p.start state) hstart
  refine ⟨hsteps, fun flow m hrun => ?_⟩
  rw [Instr.run_tracedAll] at hpost
  rw [Program.run] at hrun
  rw [hrun] at hpost
  exact hpost

namespace Generate.Issues

variable {ctx : Context} {program : Term} {scopes : Scopes} {b : Builder}

/-- Code that is issued for a program with the standard library is sound, with the types of values tracked or
not, and from all registers or from those that are written. Its slots are used with the types of their entries. -/
theorem sound_of_slots (hstd : ctx.library = .standard) (slots : Nat → Ty → Prop)
    (hslots : ∀ name e, ctx.registry.get? name = some e → slots e.index e.ty)
    (h : Issues ctx 0 (.one program) [] { target := ctx.registry.target, slots := ctx.registry.size } scopes b)
    (typed : Prop) (hcustom : typed → ∀ name v, ctx.custom.get? name = some v → v.HasType v.ty)
    (htypable : typed → program.Everywhere Node.Typable) {W : Set Reg}
    (hstrict : (∀ r, r ∈ W) ∨ program.Everywhere Node.Scoped) :
    b.finish.slots = ctx.registry.size ∧
      ∃ W', Instr.Sound ⟨slots, typed⟩ b.finish.regs {.return} W b.finish.body W' := by
  have hctx : Context.Sound ⟨slots, typed⟩ ctx := by
    refine ⟨hslots, hcustom, fun _ _ hget => ?_⟩
    rw [hstd] at hget
    exact Library.standard_sound hget
  obtain ⟨code, W', hadds, -, hsound, -⟩ := h.yields (J := {.return}) hctx (by simp)
    (fun htyped => List.forall_mem_singleton.mpr (htypable htyped)) (hstrict.imp_right List.forall_mem_singleton.mpr) nofun
  exact ⟨hadds.finish.2, W', hadds.finish.1 ▸ hsound⟩

section

variable (hstd : ctx.library = .standard) (hnumbered : ctx.registry.Numbered)
  (h : Issues ctx 0 (.one program) [] { target := ctx.registry.target, slots := ctx.registry.size } scopes b)

include hstd hnumbered h

/-- So it is with the types that a registry lists. -/
theorem sound :
    b.finish.slots = ctx.registry.size ∧
      ∀ typed : Prop, (typed → ∀ name v, ctx.custom.get? name = some v → v.HasType v.ty) →
        (typed → program.Everywhere Node.Typable) →
        ∀ W : Set Reg, ((∀ r, r ∈ W) ∨ program.Everywhere Node.Scoped) →
        ∃ W', Instr.Sound ⟨ctx.registry.slotTypes, typed⟩ b.finish.regs {.return} W b.finish.body W' := by
  have hslots (name : String) (e : Entry) (hget : ctx.registry.get? name = some e) :
      ctx.registry.slotTypes[e.index]? = some e.ty := hnumbered.slotTypes_getElem? hget
  have hsound := h.sound_of_slots hstd ctx.registry.slotTypes hslots
  exact ⟨(hsound False nofun nofun (.inl Set.mem_univ)).1, fun typed hcustom htypable W hstrict =>
    (hsound typed hcustom htypable hstrict).2⟩

/-- Such code passes verification. -/
theorem verified : b.finish.verify = .ok () := by
  obtain ⟨hslots, hsound⟩ := h.sound hstd hnumbered
  obtain ⟨W', hsound⟩ := hsound False nofun nofun Set.univ (.inl Set.mem_univ)
  have hcheck : Instr.checkAll _ false b.finish.body = .ok () := hsound.checkAll (by simp)
  rwa [Registry.length_slotTypes, ← hslots] at hcheck

end

end Generate.Issues

namespace Tree

variable {t : Tree} {map : SourceMap} {target : Target} {options : CompileOptions} {e : Executable}

/-- So is code that is issued for a lowered program. -/
theorem issued_sound {registry : Registry} (hnumbered : registry.Numbered) {custom : CustomData} {program : Term}
    {spanOf : NodeId → Option Span} {scopes : Scopes} {b : Builder} (hlowers : Lowers t.program program)
    (hissues : Generate.Issues ⟨registry, .standard, custom, spanOf⟩ 0 (.one program) []
      { target := registry.target, slots := registry.size } scopes b) :
    b.finish.slots = registry.size ∧
      ∀ typed : Prop, (typed → ∀ name v, custom.get? name = some v → v.HasType v.ty) →
        (typed → t.program.Everywhere Node.Typable) →
        ∀ W : Set Reg, ((∀ r, r ∈ W) ∨ t.program.Everywhere Node.Scoped) →
        ∃ W', Instr.Sound ⟨registry.slotTypes, typed⟩ b.finish.regs {.return} W b.finish.body W' := by
  obtain ⟨hslots, hsound⟩ := hissues.sound rfl hnumbered
  refine ⟨hslots, fun typed hcustom htypable W hstrict => ?_⟩
  exact hsound typed hcustom (fun htyped => hlowers.keepsTypable (htypable htyped)) W
    (hstrict.imp_right hlowers.keepsScoped)

/-- The code of a compilation that succeeds with the standard library is sound before it is optimised, with
the types of values tracked or not, and from all registers or from those that are written. -/
theorem compile_sound (h : t.compile map target options = .ok e) (hlibrary : options.library = .standard) :
    ∃ code : Code, code.slots = e.registry.size ∧ (code.optimize options.level).compile = .ok e.program ∧
      (∀ level p, (code.optimize level).compile = .ok p →
        t.compile map target { options with level } = .ok { e with program := p }) ∧
      ∀ typed : Prop, (typed → ∀ name v, options.custom.get? name = some v → v.HasType v.ty) →
        (typed → t.program.Everywhere Node.Typable) →
        ∀ W : Set Reg, ((∀ r, r ∈ W) ∨ t.program.Everywhere Node.Scoped) →
        ∃ W', Instr.Sound ⟨e.registry.slotTypes, typed⟩ code.regs {.return} W code.body W' := by
  obtain ⟨hnumbered, program, spanOf, scopes, b, hlowers, hissues, hcompile, hlevels⟩ := compile_eq_ok h
  rw [hlibrary] at hissues
  obtain ⟨hslots, hsound⟩ := issued_sound hnumbered hlowers hissues
  exact ⟨b.finish, hslots, hcompile, hlevels, hsound⟩

/-- Type soundness: at every step of every run of a compiled program, each register holds a value of its
declared type and each slot one of its field's type, and no conversion falls back to zero. So it is after
a run that ends. -/
theorem compile_typeSound (h : t.compile map target options = .ok e) (hlibrary : options.library = .standard)
    (htypable : t.program.Everywhere Node.Typable)
    (hcustom : ∀ name v, options.custom.get? name = some v → v.HasType v.ty) (state : ElementState)
    (hstate : state.Holds e.registry.slotTypes) (fuel : Nat) :
    (∀ s ∈ e.program.steps fuel state, s.Typed e.program.code.regs e.registry.slotTypes) ∧
      ∀ flow m, e.program.run fuel state = .done flow m → m.Typed e.program.code.regs e.registry.slotTypes := by
  obtain ⟨code, -, hcompile, -, hsound⟩ := compile_sound h hlibrary
  obtain ⟨W', hsound⟩ := hsound True (fun _ => hcustom) (fun _ => htypable) Set.univ (.inl Set.mem_univ)
  have hfit : e.program.code.AllFit ⟨e.registry.slotTypes, True⟩ := by
    rw [Code.code_of_compile hcompile]
    exact Code.AllFit.optimize hsound.fits trivial options.level
  exact hfit.staysTyped trivial fuel hstate

/-- `while (@b < 3) { @a += @b * 2; @b++; }`, with a floating field and an integer one. -/
def runningSum : Tree where
  id := 0
  slots := #[
    some ⟨.block [12], none⟩,
    some ⟨.field "a" .float false true, some 5⟩,
    some ⟨.field "b" .int32 false false, some 4⟩,
    some ⟨.value (.int32 2), some 4⟩,
    some ⟨.binary .mul 2 3, some 5⟩,
    some ⟨.assign 1 4 (some .add), some 10⟩,
    some ⟨.field "b" .int32 false false, some 7⟩,
    some ⟨.crement .increment true 6, some 10⟩,
    some ⟨.field "b" .int32 false false, some 11⟩,
    some ⟨.value (.int32 3), some 11⟩,
    some ⟨.block [5, 7], some 12⟩,
    some ⟨.binary .lt 8 9, some 12⟩,
    some ⟨.loop .while none (some 11) none 10, some 0⟩]
  root := 0

/-- The term of the sum. -/
theorem runningSum_program : runningSum.program = .node 0 (.block [.node 12 (.loop .while none
    (some (.node 11 (.binary .lt (.node 8 (.field "b" .int32 false false)) (.node 9 (.value (.int32 3)))))) none
    (.node 10 (.block [
      .node 5 (.assign (.node 1 (.field "a" .float false true))
        (.node 4 (.binary .mul (.node 2 (.field "b" .int32 false false)) (.node 3 (.value (.int32 2))))) (some .add)),
      .node 7 (.crement .increment true (.node 6 (.field "b" .int32 false false)))])))]) := rfl

/-- The types in the sum have names. -/
theorem runningSum_typable : runningSum.program.Everywhere Node.Typable := by
  have hint : Ty.int32.Nameable := ⟨"int32", by decide⟩
  have hfloat : Ty.float.Nameable := ⟨"float", by decide⟩
  rw [runningSum_program]
  simp [Term.Everywhere.iff_children, Node.typable_iff, Node.types, Node.compound?, hint, hfloat, BinaryOp.opClass]

/-- The sum as it is compiled with all optimisations. -/
theorem compile_typeSound_runningSum :
    ∃ e, runningSum.compile (.empty runningSum) .points { level := .full } = .ok e ∧
      runningSum.program.Everywhere Node.Typable ∧
      (ElementState.start #[.int32 0, .float (Float32.ofBits 0)] none).Holds e.registry.slotTypes ∧
      ∀ fuel, (∀ s ∈ e.program.steps fuel (.start #[.int32 0, .float (Float32.ofBits 0)] none),
          s.Typed e.program.code.regs e.registry.slotTypes) ∧
        ∀ flow m, e.program.run fuel (.start #[.int32 0, .float (Float32.ofBits 0)] none) = .done flow m →
          m.Typed e.program.code.regs e.registry.slotTypes := by
  have hcompile : (runningSum.compile (.empty runningSum) .points { level := .full }).toOption.map
      (fun e => e.registry.slotTypes) = some [.int32, .float] := by decide +kernel
  obtain ⟨e, h, hslots⟩ := exists_ok_of_map hcompile
  have hstate : (ElementState.start #[.int32 0, .float (Float32.ofBits 0)] none).Holds e.registry.slotTypes := by
    rw [hslots]
    rintro (_ | _ | _) ty hty
    · obtain rfl := Option.some.inj hty
      exact ⟨_, rfl, .scalar rfl⟩
    · obtain rfl := Option.some.inj hty
      exact ⟨_, rfl, .scalar rfl⟩
    · simp at hty
  exact ⟨e, h, runningSum_typable, hstate, compile_typeSound h rfl runningSum_typable nofun _ hstate⟩

end Tree

end Elementwise
