import Elementwise.Code.Optimize
import Elementwise.Proofs.Code.Effects

/-!
# Known constants

All instructions of some code, nested ones included, and what the analyses of the optimiser find in
them. A register that is written once, by a constant, is written by nothing else, so wherever a run
has written it, it holds that constant.
-/

namespace Elementwise

namespace Instr

/-- The registers that code writes are those of its instructions. -/
theorem defsAll_eq (code : List Instr) : defsAll code = (partsAll code).filterMap dst? := by
  induction code using code_induction with
  | nil => rfl
  | leaf i rest hleaf ih =>
    have hi : i.defs = i.dst?.toList := by cases i <;> first | rfl | simp [bodies] at hleaf
    simp only [defsAll, partsAll, parts_leaf hleaf, hi, ih, List.singleton_append, List.filterMap_cons]
    cases i.dst? <;> rfl
  | branch c t e rest ht he ih => simp [defsAll, defs, partsAll, parts, ht, he, ih, List.filterMap_cons, dst?]
  | loop k t c b s rest ht hb hs ih =>
    simp [defsAll, defs, partsAll, parts, ht, hb, hs, ih, List.filterMap_cons, dst?]

/-- The registers that code reads are those that its instructions read. -/
theorem readsAll_eq (code : List Instr) : readsAll code = (partsAll code).flatMap uses := by
  induction code using code_induction with
  | nil => rfl
  | leaf i rest hleaf ih =>
    have hi : i.reads = i.uses := by cases i <;> first | rfl | simp [bodies] at hleaf
    simp [readsAll, partsAll, parts_leaf hleaf, hi, ih]
  | branch c t e rest ht he ih => simp [readsAll, reads, partsAll, parts, ht, he, ih, uses]
  | loop k t c b s rest ht hb hs ih => simp [readsAll, reads, partsAll, parts, ht, hb, hs, ih, uses]

/-- A constant that is found in code is put into its register by an instruction of the code. -/
theorem mem_constsAll {code : List Instr} {r : Reg} {v : Value} (h : (r, v) ∈ constsAll code) :
    const r v ∈ partsAll code := by
  induction code using code_induction with
  | nil => simp [constsAll] at h
  | leaf i rest hleaf ih =>
    simp only [constsAll, List.mem_append] at h
    simp only [partsAll, parts_leaf hleaf, List.singleton_append, List.mem_cons]
    refine h.imp (fun hi => ?_) ih
    cases i <;> simp_all [consts, bodies]
  | branch c t e rest ht he ih =>
    simp only [constsAll, consts, List.mem_append] at h
    simp only [partsAll, parts, List.mem_append, List.mem_cons]
    exact h.imp (fun hi => .inr (hi.imp ht he)) ih
  | loop k t c b s rest ht hb hs ih =>
    simp only [constsAll, consts, List.mem_append] at h
    simp only [partsAll, parts, List.mem_append, List.mem_cons]
    exact h.imp (fun hi => .inr (hi.imp (.imp ht hb) hs)) ih

/-- An instruction that writes a known register only if it puts the known constant there. -/
def Respects (known : Constants) (i : Instr) : Prop :=
  ∀ r v, i.dst? = some r → known.lookup r = some v → i = const r v

end Instr

/-- Of a list with one element that passes a test, two elements that pass are the same. -/
theorem eq_of_countP_eq_one {α : Type} {p : α → Bool} {l : List α} (hone : l.countP p = 1) {a b : α}
    (ha : a ∈ l) (hb : b ∈ l) (hpa : p a) (hpb : p b) : a = b := by
  induction l with
  | nil => simp at ha
  | cons x rest ih =>
    by_cases hx : p x
    · have hnone : ∀ y ∈ rest, ¬p y := by
        simpa [List.countP_cons, hx, List.countP_eq_zero] using hone
      have honly {y : α} (hy : y ∈ x :: rest) (hpy : p y) : y = x := by
        rcases List.mem_cons.mp hy with h | h
        · exact h
        · exact absurd hpy (hnone y h)
      exact (honly ha hpa).trans (honly hb hpb).symm
    · have hrest {y : α} (hy : y ∈ x :: rest) (hpy : p y) : y ∈ rest := by
        rcases List.mem_cons.mp hy with h | h
        · exact absurd (h ▸ hpy) hx
        · exact h
      exact ih (by simpa [List.countP_cons, hx] using hone) (hrest ha hpa) (hrest hb hpb)

namespace Code

/-- Every instruction of some code respects the constants that are known of it. -/
theorem respects_constants (c : Code) : ∀ i ∈ Instr.partsAll c.body, i.Respects c.constants := by
  intro i hi r v hdst hknown
  have hmem : (r, v) ∈ c.constants := by
    obtain ⟨pre, post, heq, -⟩ := List.lookup_eq_some_iff.mp hknown
    rw [heq]
    simp
  obtain ⟨hconst, hcount⟩ := List.mem_filter.mp hmem
  rw [Instr.defsAll_eq, beq_iff_eq, List.count, List.countP_filterMap] at hcount
  exact eq_of_countP_eq_one hcount hi (Instr.mem_constsAll hconst) (by simp [hdst]) (by simp [Instr.dst?])

end Code

/-- One machine on both sides, with the known constants in the registers that were written. -/
def Held (known : Constants) : Tie := fun W m W' m' =>
  W = W' ∧ m = m' ∧ ∀ r ∈ W, ∀ v, known.lookup r = some v → m.regs[r]? = some v

namespace Held

variable {known : Constants} {types : Array Ty} {fuel : Nat}

/-- Both sides see the same in every register that was written. -/
theorem sees {W W' : List Reg} {m m' : Machine} (h : Held known W m W' m') (r : Reg) (hr : r ∈ W) :
    r ∈ W' ∧ m'.regs[r]? = m.regs[r]? := by
  obtain ⟨rfl, rfl, -⟩ := h
  exact ⟨hr, rfl⟩

/-- Writing a register keeps the constants where they are if the instruction respects them. -/
theorem keep {W : List Reg} {m n : Machine} {i : Instr} (h : Held known W m W m)
    (hi : i.Respects known) (hkeeps : i.Keeps m n)
    (hconst : ∀ r v, i = .const r v → n.regs[r]? = some v) :
    Held known (i.dst?.toList ++ W) n (i.dst?.toList ++ W) n := by
  refine ⟨rfl, rfl, fun r hr v hknown => ?_⟩
  by_cases hdst : i.dst? = some r
  · exact hconst r v (hi r v hdst hknown)
  · have hW : r ∈ W := by
      rcases List.mem_append.mp hr with hr | hr
      · exact absurd (by simpa using hr) hdst
      · exact hr
    rw [hkeeps.2 r hdst]
    exact h.2.2 r hW v hknown

/-- An instruction that runs like another one and writes the same register takes its place. -/
theorem follows {i i' : Instr} (hleaf : i.bodies = []) (hi : i.Respects known)
    (hdst : i'.dst? = i.dst?) (huses : ∀ r ∈ i'.uses, r ∈ i.uses)
    (hrun : ∀ m, (∀ r ∈ i.uses, ∀ v, known.lookup r = some v → m.regs[r]? = some v) →
      i'.run types fuel m = i.run types fuel m) :
    Follows (Held known) (Traced.one i (i.run types fuel)) (Traced.one i' (i'.run types fuel)) := by
  rintro W m _ _ ⟨rfl, rfl, hheld⟩ hreads
  simp only [Traced.one, ReadsWritten, writtenAfter, and_true, hdst] at hreads ⊢
  refine ⟨fun r hr => hreads r (huses r hr), ?_⟩
  rw [hrun m fun r hr v hv => hheld r (hreads r hr) v hv]
  have hpost : (i.run types fuel m).Post fun _ n =>
      Held known (i.dst?.toList ++ W) n (i.dst?.toList ++ W) n := by
    have heffect : (i.run types fuel m).Post (i.Effect m) := Instr.run_effect hleaf
    cases hout : i.run types fuel m with
    | done flow n =>
      rw [hout] at heffect
      refine keep ⟨rfl, rfl, hheld⟩ hi heffect.keeps ?_
      rintro r v rfl
      have hset : (m.set r v).Post fun _ n => n.regs[r]? = some v := Machine.post_set fun hr => by simp [hr]
      exact hset.of_done hout
    | failed fault n => trivial
    | exhausted => trivial
  cases hout : i.run types fuel m with
  | done flow n => exact .done flow (hpost.of_done hout)
  | failed fault n => exact .failed fault rfl rfl
  | exhausted => exact .exhausted

end Held

end Elementwise
