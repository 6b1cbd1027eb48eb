import Elementwise.Proofs.Code.TypedRun
import Elementwise.Proofs.Optimize.Heads

/-!
# Optimisation keeps types

Code whose instructions all fit their registers still does after every pass: what a pass leaves, it
leaves as it was, and a constant that it puts in place of an instruction has the type of its register.
-/

namespace Elementwise

namespace Instr

variable {σ : Regime} {types : Array Ty} {known : Constants}

/-- Every instruction of the code fits. -/
def AllFit (σ : Regime) (types : Array Ty) (code : List Instr) : Prop := ∀ i ∈ partsAll code, i.Fits σ types

theorem fits_head {i : Instr} : i.head.Fits σ types ↔ i.Fits σ types := by cases i <;> rfl

theorem allFit_iff_heads {code : List Instr} : AllFit σ types code ↔ ∀ i ∈ heads code, i.Fits σ types := by
  simp only [AllFit, heads, List.forall_mem_map, fits_head]

/-- Known constants have the types of their registers. -/
def ConstantsFit (types : Array Ty) (known : Constants) : Prop :=
  ∀ r v, known.lookup r = some v → ∃ ty, types[r]? = some ty ∧ v.HasType ty

theorem ConstantsFit.mapM (h : ConstantsFit types known) {rs : List Reg} {tys : List Ty} {vs : List Value}
    (htys : HaveTypes types rs tys) (hvs : (rs.mapM fun r => known.lookup r) = some vs) :
    List.Forall₂ Value.HasType vs tys := by
  induction htys generalizing vs with
  | nil =>
    obtain rfl : [] = vs := by simpa using hvs
    exact .nil
  | @cons r ty rs tys hr _ ih =>
    simp only [List.mapM_cons, Option.pure_def, Option.bind_eq_bind, Option.bind_eq_some_iff, Option.some.injEq] at hvs
    obtain ⟨v, hv, vs', hvs', rfl⟩ := hvs
    obtain ⟨ty', hty', htype⟩ := h r v hv
    exact .cons (Option.some.inj (hr.symm.trans hty') ▸ htype) (ih hvs')

/-- The value of an instruction that fits, if it is known, has the type of its register. -/
theorem Fits.evaluate? {i : Instr} (h : i.Fits σ types) (htyped : σ.typed) (hknown : ConstantsFit types known)
    {v : Value} (hv : i.evaluate? types known = some v) {d : Reg} (hd : i.dst? = some d) :
    (const d v).Fits σ types := by
  obtain ⟨tys, res, huses, hdst, hrule⟩ := h
  refine ⟨[], res, .nil, fun d' hd' => ?_, fun _ => ?_⟩
  · obtain rfl : d = d' := Option.some.inj hd'
    exact hdst d hd
  have hlookup {r : Reg} {ty : Ty} {w : Value} (hr : types[r]? = some ty) (hw : known.lookup r = some w) :
      w.HasType ty := by
    obtain ⟨ty', hty', htype⟩ := hknown r w hw
    exact Option.some.inj (hr.symm.trans hty') ▸ htype
  cases i with
  | copy d' s =>
    obtain rfl : tys = [res] := hrule
    rcases huses with _ | ⟨hs, -⟩
    exact hlookup hs hv
  | binary d' op l r =>
    obtain ⟨ty, rfl, hop⟩ := hrule
    rcases huses with _ | ⟨hl, _ | ⟨hr, -⟩⟩
    simp only [Instr.evaluate?, Option.bind_eq_bind, Option.bind_eq_some_iff, Option.some.injEq] at hv
    obtain ⟨a, ha, b, hb, rfl⟩ := hv
    exact hop htyped a b (hlookup hl ha) (hlookup hr hb)
  | unary d' op s =>
    obtain ⟨ty, rfl, hop⟩ := hrule
    rcases huses with _ | ⟨hs, -⟩
    simp only [Instr.evaluate?, Option.bind_eq_bind, Option.bind_eq_some_iff, Option.some.injEq] at hv
    obtain ⟨a, ha, rfl⟩ := hv
    exact hop htyped a (hlookup hs ha)
  | convert d' s =>
    obtain ⟨ty, rfl, hop⟩ := hrule
    rcases huses with _ | ⟨hs, -⟩
    simp only [Instr.evaluate?, Option.bind_eq_bind, Option.bind_eq_some_iff] at hv
    obtain ⟨a, ha, ty', hty', hv⟩ := hv
    obtain rfl := Option.some.inj ((hdst d' rfl).symm.trans hty')
    obtain ⟨w, hw, htype⟩ := hop htyped a (hlookup hs ha)
    exact Option.some.inj (hw.symm.trans hv) ▸ htype
  | pack d' items =>
    simp only [Instr.evaluate?, Option.bind_eq_bind, Option.bind_eq_some_iff, Option.some.injEq] at hv
    obtain ⟨vs, hvs, ty', hty', rfl⟩ := hv
    obtain rfl := Option.some.inj ((hdst d' rfl).symm.trans hty')
    exact hrule htyped vs (hknown.mapM huses hvs)
  | extract d' s j =>
    obtain ⟨ty, rfl, rfl⟩ := hrule
    rcases huses with _ | ⟨hs, _⟩
    simp only [Instr.evaluate?, Option.bind_eq_bind, Option.bind_eq_some_iff] at hv
    obtain ⟨x, hx, w, hw, hv⟩ := hv
    split at hv
    · next component hcomponent =>
      obtain rfl := Option.some.inj hv
      exact (hlookup hs hw).extractAt? hcomponent
    · simp only [Option.bind_eq_some_iff, Option.some.injEq] at hv
      obtain ⟨ty', hty', rfl⟩ := hv
      obtain rfl := Option.some.inj ((hdst d' rfl).symm.trans hty')
      exact Value.hasType_zero _
  | _ => cases hv

end Instr

namespace Code

variable {σ : Regime}

/-- Every instruction of the code fits its registers. -/
def AllFit (σ : Regime) (c : Code) : Prop := Instr.AllFit σ c.regs c.body

/-- The constants of code that fits have the types of their registers. -/
theorem AllFit.constants {c : Code} (h : c.AllFit σ) (htyped : σ.typed) : Instr.ConstantsFit c.regs c.constants := by
  intro r v hv
  have hmem : (r, v) ∈ c.constants := by
    obtain ⟨pre, post, heq, -⟩ := List.lookup_eq_some_iff.mp hv
    rw [heq]
    simp
  obtain ⟨tys, res, -, hdst, hrule⟩ := h _ (Instr.mem_constsAll (List.mem_filter.mp hmem).1)
  exact ⟨res, hdst r rfl, hrule htyped⟩

/-- One pass. -/
theorem AllFit.thinned {c : Code} {p : Passed Code} (h : c.AllFit σ) (htyped : σ.typed) (hpass : p.Thinned c) :
    p.result.AllFit σ := by
  have hheads := Instr.allFit_iff_heads.mp h
  rw [AllFit, hpass.regs, Instr.allFit_iff_heads]
  intro i hi
  rcases hpass.body.folds hi with hi | ⟨j, hj, d, v, hd, hv, rfl⟩
  · exact hheads i hi
  · exact (hheads j hj).evaluate? htyped (h.constants htyped) hv hd

/-- Optimisation. -/
theorem AllFit.optimize {c : Code} (h : c.AllFit σ) (htyped : σ.typed) (level : OptLevel) :
    (c.optimize level).AllFit σ :=
  optimize_induction (fun pass hpass c hc => hc.thinned htyped (thinned_of_mem_passes pass hpass c)) h

end Code

end Elementwise
