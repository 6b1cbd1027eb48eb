import Elementwise.Proofs.Code.Sound

/-!
# Runs of typed code

If every instruction of some code fits its registers and the types of values are tracked, a run that
starts with registers and slots that hold values of their types goes on like that: at every step, and
when it ends. No conversion it makes falls back to a zero.
-/

namespace Elementwise

/-- The slots of an element hold values of these types. -/
def ElementState.Holds (types : List Ty) (s : ElementState) : Prop :=
  ∀ (slot : Nat) ty, types[slot]? = some ty → ∃ v : Value, s.values[slot]? = some v ∧ v.HasType ty

/-- Every register and every slot holds a value of its type. -/
structure Machine.Typed (types : Array Ty) (slots : List Ty) (m : Machine) : Prop where
  regs : ∀ (r : Reg) ty, types[r]? = some ty → ∃ v : Value, m.regs[r]? = some v ∧ v.HasType ty
  slots : m.state.Holds slots

/-- A step from registers and slots that hold values of their types; a conversion has a result. -/
structure Step.Typed (types : Array Ty) (slots : List Ty) (s : Step) : Prop where
  machine : s.machine.Typed types slots
  convert : ∀ d r, s.instr = .convert d r →
    ∃ (v : Value) (ty : Ty), s.machine.regs[r]? = some v ∧ types[d]? = some ty ∧ (v.convert? ty).isSome = true

namespace Machine.Typed

variable {types : Array Ty} {slots : List Ty} {m : Machine}

/-- The value of a register has its type. -/
theorem hasType (h : m.Typed types slots) {r : Reg} {ty : Ty} {v : Value} (hty : types[r]? = some ty)
    (hv : m.regs[r]? = some v) : v.HasType ty := by
  obtain ⟨w, hw, htype⟩ := h.regs r ty hty
  rw [hv] at hw
  exact Option.some.inj hw ▸ htype

/-- The values of registers have their types. -/
theorem fetch (h : m.Typed types slots) {rs : List Reg} {tys : List Ty} {vs : List Value}
    (htys : Instr.HaveTypes types rs tys) (hvs : m.fetch rs = .ok vs) : List.Forall₂ Value.HasType vs tys := by
  induction htys generalizing vs with
  | nil =>
    obtain rfl : [] = vs := Except.ok.inj hvs
    exact .nil
  | @cons r ty rs tys hr _ ih =>
    unfold Machine.fetch at hvs
    split at hvs
    · cases hvs
    · cases hvs
    · next v vs' hv hvs' =>
      obtain rfl : v :: vs' = vs := Except.ok.inj hvs
      exact .cons (h.hasType hr hv) (ih hvs')

/-- Writing a value of its type into a register. -/
theorem set (h : m.Typed types slots) {d : Reg} {ty : Ty} {v : Value} (hty : types[d]? = some ty)
    (hv : v.HasType ty) : Machine.Typed types slots { m with regs := m.regs.setIfInBounds d v } := by
  refine ⟨fun r ty' hr => ?_, h.slots⟩
  obtain ⟨w, hw, htype⟩ := h.regs r ty' hr
  by_cases hd : d = r
  · subst hd
    obtain rfl := Option.some.inj (hty.symm.trans hr)
    exact ⟨v, by simp [(Array.getElem?_eq_some_iff.mp hw).1], hv⟩
  · exact ⟨w, by simpa [hd] using hw, htype⟩

/-- Writing a value of its type into a slot. -/
theorem write (h : m.Typed types slots) {slot : Nat} {ty : Ty} {v : Value} (hty : slots[slot]? = some ty)
    (hv : v.HasType ty) : Machine.Typed types slots { m with state := m.state.write slot v } := by
  refine ⟨h.regs, fun slot' ty' hslot => ?_⟩
  obtain ⟨w, hw, htype⟩ := h.slots slot' ty' hslot
  unfold ElementState.write
  split
  · by_cases hs : slot = slot'
    · subst hs
      obtain rfl := Option.some.inj (hty.symm.trans hslot)
      exact ⟨v, by simp [(Array.getElem?_eq_some_iff.mp hw).1], hv⟩
    · exact ⟨w, by simpa [hs] using hw, htype⟩
  · exact ⟨w, hw, htype⟩

end Machine.Typed

namespace Instr

variable {slots : List Ty} {typed : Prop} {types : Array Ty} {fuel : Nat} {i : Instr} {m : Machine}

/-- An instruction without bodies that fits keeps registers and slots within their types. -/
theorem Fits.run_typed (h : i.Fits ⟨slots, typed⟩ types) (htyped : typed) (hleaf : i.bodies = [])
    (hm : m.Typed types slots) : (i.run types fuel m).Post fun _ n => n.Typed types slots := by
  obtain ⟨tys, res, huses, hdst, hrule⟩ := h
  have hset {d : Reg} {v : Value} (hd : i.dst? = some d) (hv : v.HasType res) :
      (m.set d v).Post fun _ n => n.Typed types slots := Machine.post_set fun _ => hm.set (hdst d hd) hv
  cases i with
  | const d v => exact hset rfl (hrule htyped)
  | copy d s =>
    obtain rfl : tys = [res] := hrule
    rcases huses with _ | ⟨hs, -⟩
    exact Machine.post_withReg fun v hv => hset rfl (hm.hasType hs hv)
  | binary d op l r =>
    obtain ⟨ty, rfl, hop⟩ := hrule
    rcases huses with _ | ⟨hl, _ | ⟨hr, -⟩⟩
    exact Machine.post_withReg fun a ha => Machine.post_withReg fun b hb =>
      hset rfl (hop htyped a b (hm.hasType hl ha) (hm.hasType hr hb))
  | unary d op s =>
    obtain ⟨ty, rfl, hop⟩ := hrule
    rcases huses with _ | ⟨hs, -⟩
    exact Machine.post_withReg fun v hv => hset rfl (hop htyped v (hm.hasType hs hv))
  | convert d s =>
    obtain ⟨ty, rfl, hop⟩ := hrule
    rcases huses with _ | ⟨hs, -⟩
    refine Machine.post_withReg fun v hv => hset rfl ?_
    obtain ⟨w, hw, htype⟩ := hop htyped v (hm.hasType hs hv)
    rw [hdst d rfl, Option.getD_some, Value.convert, hw]
    exact htype
  | pack d items =>
    refine Machine.post_withRegs fun vs hvs => hset rfl ?_
    rw [hdst d rfl]
    exact hrule htyped vs (hm.fetch huses hvs)
  | extract d s j =>
    obtain ⟨ty, rfl, rfl⟩ := hrule
    rcases huses with _ | ⟨hs, _⟩
    refine Machine.post_withReg fun x _ => Machine.post_withReg fun v hv => hset rfl ?_
    cases hw : v.extractAt? x with
    | none =>
      rw [hdst d rfl]
      exact Value.hasType_zero _
    | some w => exact (hm.hasType hs hv).extractAt? hw
  | insert d s j c =>
    obtain rfl : tys = [res, .int32, res.elementTy] := hrule
    rcases huses with _ | ⟨hs, _ | ⟨-, _ | ⟨hc, -⟩⟩⟩
    exact Machine.post_withReg fun x _ => Machine.post_withReg fun v hv => Machine.post_withReg fun w hw =>
      hset rfl ((hm.hasType hs hv).insertAt (hm.hasType hc hw) x)
  | read d slot =>
    obtain ⟨v, hv, htype⟩ := hm.slots slot res hrule
    rw [run, ElementState.read?, hv]
    exact hset rfl htype
  | write slot s =>
    obtain ⟨ty, rfl, hslot⟩ := hrule
    rcases huses with _ | ⟨hs, -⟩
    exact Machine.post_withReg fun v hv => hm.write hslot (hm.hasType hs hv)
  | intrinsic d op => exact hset rfl ((show res = op.ty from hrule) ▸ op.hasType _)
  | call d name body args =>
    refine Machine.post_withRegs fun vs hvs => Machine.post_callNative fun result hresult hd => ?_
    have hm' := hm.set (hdst d rfl) (hrule htyped vs result (hm.fetch huses hvs) hresult)
    exact ⟨hm'.regs, hm'.slots⟩
  | branch | loop => simp [bodies] at hleaf
  | jump word => exact hm

/-- A step that executes an instruction that fits. -/
theorem Fits.step_typed (h : i.Fits ⟨slots, typed⟩ types) (htyped : typed) (hm : m.Typed types slots) :
    Step.Typed types slots ⟨m, i⟩ := by
  refine ⟨hm, ?_⟩
  rintro d r ⟨⟩
  obtain ⟨tys, res, huses, hdst, ty, rfl, hop⟩ := h
  rcases huses with _ | ⟨hs, -⟩
  obtain ⟨v, hv, htype⟩ := hm.regs r ty hs
  obtain ⟨w, hw, -⟩ := hop htyped v htype
  exact ⟨v, res, hv, hdst d rfl, by rw [hw]; rfl⟩

end Instr

namespace Traced

/-- A run from registers and slots that hold values of their types goes on like that. -/
def StaysTyped {α : Type} (types : Array Ty) (slots : List Ty) (t : Traced α) : Prop :=
  ∀ m : Machine, m.Typed types slots →
    (∀ s ∈ t.steps m, s.Typed types slots) ∧ (t.run m).Post fun _ n => n.Typed types slots

namespace StaysTyped

variable {α β : Type} {types : Array Ty} {slots : List Ty}

theorem pure (a : α) : StaysTyped types slots (.pure a) := fun _ hm => ⟨nofun, hm⟩

theorem bind {t : Traced α} {k : α → Traced β} (h : t.StaysTyped types slots)
    (hk : ∀ a, (k a).StaysTyped types slots) : (t.bind k).StaysTyped types slots := by
  intro m hm
  obtain ⟨hsteps, hpost⟩ := h m hm
  simp only [Traced.bind]
  cases hrun : t.run m with
  | done a n =>
    obtain ⟨hsteps', hpost'⟩ := hk a n (hpost.of_done hrun)
    exact ⟨List.forall_mem_append.mpr ⟨hsteps, hsteps'⟩, hpost'⟩
  | failed fault n => exact ⟨by simpa using hsteps, trivial⟩
  | exhausted => exact ⟨by simpa using hsteps, trivial⟩

end StaysTyped

end Traced

namespace Instr

variable {slots : List Ty} {typed : Prop} {types : Array Ty}

/-- A run of code whose instructions all fit stays within the types of registers and slots. -/
theorem tracedAll_staysTyped (htyped : typed) (fuel : Nat) {code : List Instr}
    (h : ∀ i ∈ partsAll code, i.Fits ⟨slots, typed⟩ types) : (tracedAll types fuel code).StaysTyped types slots := by
  have hcomposes : Traced.Composes fun _ t _ => t.StaysTyped types slots := ⟨.pure, .bind⟩
  have hstep {i : Instr} (hi : i ∈ partsAll code) {m : Machine} (hm : m.Typed types slots) :
      ∀ s ∈ [Step.mk m i], s.Typed types slots := List.forall_mem_singleton.mpr ((h i hi).step_typed htyped hm)
  refine hcomposes.tracedAll types (Nat.le_refl fuel) (fun _ m hm => ⟨nofun, trivial⟩)
    (fun i hi hleaf m hm => ⟨hstep hi hm, (h i hi).run_typed htyped hleaf hm⟩) fun i hi _ α run hlooks m hm => ?_
  refine ⟨hstep hi hm, ?_⟩
  rcases hlooks m with ⟨a, ha⟩ | ⟨r, -, -, hr⟩
  · simp only [Traced.one, ha]
    exact hm
  · simp only [Traced.one, hr]
    trivial

end Instr

end Elementwise
