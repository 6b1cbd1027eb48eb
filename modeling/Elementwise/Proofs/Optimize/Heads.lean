import Elementwise.Proofs.Optimize.Passes

/-!
# What optimised code consists of

A pass drops instructions, and folding puts constants in place of some. Told apart from the bodies in them,
which shrink with the rest, all other instructions of the optimised code stood in the code before.
-/

namespace Elementwise

namespace Instr

/-- An instruction without its bodies. -/
def head : Instr → Instr
  | branch condition _ _ => branch condition [] []
  | loop kind _ condition _ _ => loop kind [] condition [] []
  | i => i

/-- All instructions of some code, nested ones included, each without its bodies. -/
def heads (code : List Instr) : List Instr := (partsAll code).map head

variable {types : Array Ty} {known : Constants} {i : Instr} {code : List Instr} {p : Passed (List Instr)}

theorem head_leaf (hleaf : i.bodies = []) : i.head = i := by
  cases i <;> first | rfl | simp [bodies] at hleaf

@[simp, grind =] theorem heads_nil : heads [] = [] := rfl

theorem heads_leaf (hleaf : i.bodies = []) (rest : List Instr) : heads (i :: rest) = i :: heads rest := by
  simp only [heads, partsAll, parts_leaf hleaf, List.singleton_append, List.map_cons, head_leaf hleaf]

/-- The heads of code that starts with a branch. -/
theorem heads_branch (c : Reg) (t e rest : List Instr) :
    heads (branch c t e :: rest) = branch c [] [] :: (heads t ++ heads e ++ heads rest) := by
  simp [heads, partsAll, parts, head]

/-- The heads of code that starts with a loop. -/
theorem heads_loop (k : LoopKind) (c : Option Reg) (t b s rest : List Instr) :
    heads (loop k t c b s :: rest) = loop k [] c [] [] :: (heads t ++ heads b ++ heads s ++ heads rest) := by
  simp [heads, partsAll, parts, head]

theorem heads_append (a b : List Instr) : heads (a ++ b) = heads a ++ heads b := by
  simp [heads]

/-- An instruction of rewritten code was in the code before, or took the place of one that was. -/
theorem Thins.mem_heads (h : Thins types known code p) (hi : i ∈ heads p.result) :
    ∃ j ∈ heads code, i = j ∨ j.bodies = [] ∧ ∃ is, Turn types known j is ∧ i ∈ heads is.result := by
  induction h with
  | nil => simp at hi
  | leaf hleaf hturns _ ih =>
    rw [heads_append, List.mem_append] at hi
    rw [heads_leaf hleaf]
    grind
  | branch _ _ _ iht ihe ih =>
    rw [heads_branch] at hi ⊢
    grind
  | taken _ _ _ _ iht ihe ih =>
    rw [heads_append, List.mem_append] at hi
    rw [heads_branch]
    grind
  | loop _ _ _ _ iht ihb ihs ih =>
    rw [heads_loop] at hi ⊢
    grind
  | jump _ =>
    rw [heads_leaf rfl] at hi ⊢
    grind

/-- An instruction was in the code, or is the constant that one of the code is known to give. -/
def Folds (types : Array Ty) (known : Constants) (code : List Instr) (i : Instr) : Prop :=
  i ∈ heads code ∨
    ∃ j ∈ heads code, ∃ d v, j.dst? = some d ∧ j.evaluate? types known = some v ∧ i = const d v

/-- A pass leaves what was there, or the constants that it is known to give. -/
theorem Thins.folds (h : Thins types known code p) (hi : i ∈ heads p.result) :
    Folds types known code i := by
  obtain ⟨j, hj, rfl | ⟨hleaf, is, his, hi⟩⟩ := h.mem_heads hi
  · exact .inl hj
  · cases his with
    | drop => simp at hi
    | keep =>
      rw [heads_leaf hleaf] at hi
      exact .inl (by grind)
    | fold hd hv =>
      rw [heads_leaf rfl] at hi
      exact .inr ⟨j, hj, _, _, hd, hv, by grind⟩

end Instr

namespace Code

/-- Optimised code writes no slot that the code did not write. -/
theorem writes_optimize {S : Nat → Prop} {c : Code} (level : OptLevel)
    (h : ∀ slot src, .write slot src ∈ Instr.partsAll c.body → S slot) :
    ∀ slot src, .write slot src ∈ Instr.partsAll (c.optimize level).body → S slot := by
  have hparts (code : List Instr) (slot : Nat) (src : Reg) :
      .write slot src ∈ Instr.heads code ↔ .write slot src ∈ Instr.partsAll code := by
    rw [Instr.heads, List.mem_map]
    constructor
    · rintro ⟨i, hi, heq⟩
      cases i <;> simp_all [Instr.head]
    · exact fun hi => ⟨_, hi, rfl⟩
  refine optimize_induction (P := fun c => ∀ slot src, .write slot src ∈ Instr.partsAll c.body → S slot) ?_ h
  intro pass hpass c hc slot src hi
  rcases (thinned_of_mem_passes pass hpass c).body.folds ((hparts _ slot src).mpr hi) with hi | ⟨j, -, d, v, -, -, heq⟩
  · exact hc slot src ((hparts _ slot src).mp hi)
  · cases heq

end Code

end Elementwise
