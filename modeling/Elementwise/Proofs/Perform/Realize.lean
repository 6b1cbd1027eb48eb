import Elementwise.Proofs.Evaluate.Actions
import Elementwise.Proofs.Perform.Basic

/-!
# Code that performs actions

When the code between two builders realizes an action: run on a machine whose registers hold what the
cells of a store hold, it ends as the action ends, with registers that hold what the cells then hold.
Registers that were made before, other than those of cells, are kept. A referent is realized by the register
of its cell, or by a register that holds its datum.
-/

namespace Elementwise

open Builder

/-- The operand of each cell. -/
abbrev Layout := List Operand

namespace Layout

variable {L : Layout} {lo lo' hi hi' : Nat}

/-- No cell has a register in a range. -/
def Clear (L : Layout) (lo hi : Nat) : Prop := ∀ o ∈ L, o.reg < lo ∨ hi ≤ o.reg

/-- Different cells have different registers. -/
def Distinct (L : Layout) : Prop := ∀ (i j : Nat) (o o' : Operand), L[i]? = some o → L[j]? = some o' → o.reg = o'.reg → i = j

theorem Clear.mono (h : L.Clear lo hi) (hlo : lo ≤ lo') (hhi : hi' ≤ hi) : L.Clear lo' hi' :=
  fun o ho => (h o ho).imp (fun hr => Nat.lt_of_lt_of_le hr hlo) fun hr => Nat.le_trans hhi hr

theorem Clear.above (h : L.Clear lo hi) (hlo : lo ≤ lo') : L.Clear lo' hi := h.mono hlo (Nat.le_refl _)

theorem Clear.below (h : L.Clear lo hi) (hhi : hi' ≤ hi) : L.Clear lo hi' := h.mono (Nat.le_refl _) hhi

/-- A register in a clear range is that of no cell. -/
theorem Clear.ne (h : L.Clear lo hi) {r : Reg} (hlo : lo ≤ r) (hhi : r < hi) : ∀ o ∈ L, o.reg ≠ r := by
  rintro o ho rfl
  exact (h o ho).elim (Nat.not_lt.mpr hlo) (Nat.not_le.mpr hhi)

end Layout

/-- The registers of a machine hold what the cells of a store hold, and the rest is the same. -/
structure Mirrors (L : Layout) (s : Store) (m : Machine) : Prop where
  cells : ∀ i o, L[i]? = some o → m.regs[o.reg]? = some (s.cell i o.ty).value
  element : m.state = s.element
  calls : m.calls = s.calls

/-- A later machine of a run that kept the registers below a bound, other than those of cells. -/
structure Machine.Kept (L : Layout) (n : Nat) (m m' : Machine) : Prop where
  size : m'.regs.size = m.regs.size
  regs : ∀ r : Reg, r < n → (∀ o ∈ L, o.reg ≠ r) → m'.regs[r]? = m.regs[r]?

namespace Machine.Kept

variable {L : Layout} {n n' : Nat} {m m₁ m₂ : Machine}

theorem refl (L : Layout) (n : Nat) (m : Machine) : m.Kept L n m := ⟨rfl, fun _ _ _ => rfl⟩

theorem trans (h : m.Kept L n m₁) (h' : m₁.Kept L n m₂) : m.Kept L n m₂ :=
  ⟨h'.size.trans h.size, fun r hr ho => (h'.regs r hr ho).trans (h.regs r hr ho)⟩

theorem mono (h : m.Kept L n' m₁) (hn : n ≤ n') : m.Kept L n m₁ :=
  ⟨h.size, fun r hr => h.regs r (Nat.lt_of_lt_of_le hr hn)⟩

/-- Other registers are kept when one is written. -/
theorem set {r : Reg} (hr : n ≤ r ∨ ∃ o ∈ L, o.reg = r) (v : Value) :
    m.Kept L n { m with regs := m.regs.setIfInBounds r v } := by
  refine ⟨Array.size_setIfInBounds, fun r' hr' ho => Array.getElem?_setIfInBounds_ne ?_⟩
  rintro rfl
  rcases hr with hr | ⟨o, hmem, heq⟩
  · exact absurd hr' (Nat.not_lt.mpr hr)
  · exact ho o hmem heq

end Machine.Kept

theorem Machine.Later.kept {L : Layout} {lo hi : Nat} {m m' : Machine} (h : m.Later lo hi m') : m.Kept L lo m' :=
  ⟨h.size, fun r hr _ => h.regs r (.inl hr)⟩

namespace Mirrors

variable {L : Layout} {s : Store} {m : Machine}

/-- A computation that only used registers of its own. -/
theorem later {lo hi : Nat} {m' : Machine} (h : Mirrors L s m) (hclear : L.Clear lo hi) (hlater : m.Later lo hi m') :
    Mirrors L { s with calls := m'.calls } m' :=
  ⟨fun i o ho => (hlater.regs o.reg (hclear o (List.mem_of_getElem? ho))).trans (h.cells i o ho),
    hlater.state.trans h.element, rfl⟩

/-- A register that is of no cell is written. -/
theorem setRegister (h : Mirrors L s m) {r : Reg} (hr : ∀ o ∈ L, o.reg ≠ r) (v : Value) :
    Mirrors L s { m with regs := m.regs.setIfInBounds r v } := by
  refine ⟨fun i o ho => ?_, h.element, h.calls⟩
  rw [← h.cells i o ho]
  exact Array.getElem?_setIfInBounds_ne (hr o (List.mem_of_getElem? ho)).symm

/-- The register of a cell is written. -/
theorem setCell (h : Mirrors L s m) (hdistinct : L.Distinct) {i : Nat} {o : Operand} (ho : L[i]? = some o)
    (hbound : o.reg < m.regs.size) (v : Value) :
    Mirrors L (s.setCell i v) { m with regs := m.regs.setIfInBounds o.reg v } := by
  refine ⟨fun j o' ho' => ?_, h.element, h.calls⟩
  by_cases hij : j = i
  · subst hij
    obtain rfl := Option.some.inj (ho.symm.trans ho')
    simp only [Store.setCell, Store.cell, if_true, Option.getD_some]
    exact Array.getElem?_setIfInBounds_self_of_lt hbound
  · have hne : o.reg ≠ o'.reg := fun heq => hij (hdistinct j i o' o ho' ho heq.symm)
    simp only [Store.setCell, Store.cell, if_neg hij]
    rw [Array.getElem?_setIfInBounds_ne hne]
    exact h.cells j o' ho'

/-- A slot is written. -/
theorem setSlot (h : Mirrors L s m) (slot : Nat) (v : Value) :
    Mirrors L { s with element := s.element.write slot v } { m with state := m.state.write slot v } :=
  ⟨h.cells, congrArg (·.write slot v) h.element, h.calls⟩

end Mirrors

/-- How the end of a run matches the end of an action. -/
inductive Ensues {α : Type} (L : Layout) (n : Nat) (m : Machine) (post : α → Machine → Prop) :
    Outcome Flow → Result α → Prop
  | value {a : α} {s : Store} {m' : Machine} (hkept : m.Kept L n m') (hmirrors : Mirrors L s m') (hpost : post a m') :
      Ensues L n m post (.done .next m') (.value a s)
  | fault {fault : Fault} {s : Store} {m' : Machine} (hmirrors : Mirrors L s m') :
      Ensues L n m post (.failed fault m') (.fault fault s)

/-- A run from a later machine, told from an earlier one. -/
theorem Ensues.mono {α : Type} {L : Layout} {n n' : Nat} {m m₀ : Machine} {post post' : α → Machine → Prop}
    {out : Outcome Flow} {result : Result α} (h : Ensues L n' m post out result) (hkept : m₀.Kept L n m) (hn : n ≤ n')
    (hpost : ∀ a m', m.Kept L n' m' → post a m' → post' a m') : Ensues L n m₀ post' out result := by
  cases h with
  | value h hmirrors hp => exact .value (hkept.trans (h.mono hn)) hmirrors (hpost _ _ h hp)
  | fault hmirrors => exact .fault hmirrors

/-- The code that was added between two builders realizes an action. -/
def Performs {α : Type} (types : Array Ty) (fuel : Nat) (L : Layout) (n : Nat) (b b' : Builder) (m : Machine)
    (s : Store) (x : Act α) (post : α → Machine → Prop) : Prop :=
  ∀ code, b.Adds code b' → KeepsTypes b'.regs types → m.regs.size = types.size →
    Ensues L n m post (Instr.runAll types fuel code m) (x s)

namespace Performs

variable {types : Array Ty} {fuel n n₁ n₂ : Nat} {L : Layout} {b b₁ b₂ : Builder} {m : Machine} {s : Store} {α β : Type}

variable {a : α} {i : Instr} {post : α → Machine → Prop} {post' : β → Machine → Prop} {u : Unit} {v : Value}
  {x : Act α}

theorem pure (hmirrors : Mirrors L s m) (h : post a m) : Performs types fuel L n b b m s (Pure.pure a) post := by
  intro code hadds _ _
  rw [hadds.unique (.refl b)]
  exact .value (.refl L n m) hmirrors h

theorem bindWithin {y : α → Act β} (hg : b.Grows b₁) (hg' : b₁.Grows b₂) (hn₁ : n ≤ n₁) (hn₂ : n ≤ n₂)
    (h : Performs types fuel L n₁ b b₁ m s x post)
    (hk : ∀ a s₁ m₁, x s = .value a s₁ → m.Kept L n₁ m₁ → Mirrors L s₁ m₁ → post a m₁ →
      Performs types fuel L n₂ b₁ b₂ m₁ s₁ (y a) post') :
    Performs types fuel L n b b₂ m s (x >>= y) post' := by
  intro code hadds htypes hsize
  obtain ⟨code₁, code₂, rfl, hadds₁, hadds₂, htypes₁⟩ := hadds.split hg hg' htypes
  rw [Instr.runAll_append, Act.bind_apply]
  have h₁ := h code₁ hadds₁ htypes₁ hsize
  generalize Instr.runAll types fuel code₁ m = out at h₁
  generalize hx : x s = result at h₁
  cases h₁ with
  | fault hmirrors => exact .fault hmirrors
  | @value a s₁ m₁ hkept hmirrors hpost =>
    have h₂ := hk a s₁ m₁ hx hkept hmirrors hpost code₂ hadds₂ htypes (hkept.size.trans hsize)
    exact h₂.mono (hkept.mono hn₁) hn₂ fun _ _ _ hp => hp

theorem bind {y : α → Act β} (hg : b.Grows b₁) (hg' : b₁.Grows b₂)
    (h : Performs types fuel L b.regs.size b b₁ m s x post)
    (hk : ∀ a s₁ m₁, m.Kept L b.regs.size m₁ → Mirrors L s₁ m₁ → post a m₁ →
      Performs types fuel L b₁.regs.size b₁ b₂ m₁ s₁ (y a) post') :
    Performs types fuel L b.regs.size b b₂ m s (x >>= y) post' :=
  bindWithin hg hg' (Nat.le_refl _) hg.size_le h fun a s₁ m₁ _ => hk a s₁ m₁

theorem weaken {post' : α → Machine → Prop} (h : Performs types fuel L n₁ b b₁ m s x post) (hn : n ≤ n₁)
    (hpost : ∀ a m', m.Kept L n₁ m' → post a m' → post' a m') : Performs types fuel L n b b₁ m s x post' :=
  fun code hadds htypes hsize => (h code hadds htypes hsize).mono (.refl L n m) hn hpost

theorem map {f : α → β} (h : Performs types fuel L n b b₁ m s x post) (hpost : ∀ a m', post a m' → post' (f a) m') :
    Performs types fuel L n b b₁ m s (x >>= fun a => Pure.pure (f a)) post' := by
  intro code hadds htypes hsize
  have h₁ := h code hadds htypes hsize
  rw [Act.bind_apply]
  generalize Instr.runAll types fuel code m = out at h₁ ⊢
  generalize x s = result at h₁ ⊢
  cases h₁ with
  | value hkept hmirrors hp => exact .value hkept hmirrors (hpost _ _ hp)
  | fault hmirrors => exact .fault hmirrors

/-- A computation that only uses registers of its own. -/
theorem compute {f : ElementState → Eval α} (hmirrors : Mirrors L s m) (hclear : L.Clear b.regs.size b₁.regs.size)
    (h : Computes types fuel b.regs.size b b₁ m (f m.state) post) :
    Performs types fuel L b.regs.size b b₁ m s (Act.compute f) post := by
  intro code hadds htypes hsize
  have h₁ := h code hadds htypes hsize
  have hanswer : f s.element s.calls = f m.state m.calls := by rw [hmirrors.element, hmirrors.calls]
  rw [Act.compute, hanswer]
  generalize Instr.runAll types fuel code m = out at h₁ ⊢
  generalize f m.state m.calls = answer at h₁ ⊢
  cases h₁ with
  | value hlater hpost => exact .value hlater.kept (hmirrors.later hclear hlater) hpost
  | fault hlater => exact .fault (hmirrors.later hclear hlater)

theorem ofOption {r : Option α} (hmirrors : Mirrors L s m) (hclear : L.Clear b.regs.size b₁.regs.size)
    (h : Computes types fuel b.regs.size b b₁ m (Eval.ofOption r) post) :
    Performs types fuel L b.regs.size b b₁ m s (Act.ofOption r) post := by
  have heq : Act.ofOption r = Act.compute fun _ => Eval.ofOption r := by cases r <;> rfl
  rw [heq]
  exact compute hmirrors hclear h

theorem congr {y : Act α} (h : Performs types fuel L n b b₁ m s y post) (hx : x s = y s) :
    Performs types fuel L n b b₁ m s x post := by
  intro code hadds htypes hsize
  rw [hx]
  exact h code hadds htypes hsize

/-- Code after code that computes something that is known. -/
theorem after {c : β} {post : β → Machine → Prop} {post' : α → Machine → Prop} (hg : b.Grows b₁) (hg' : b₁.Grows b₂)
    (hn : n ≤ b.regs.size) (hmirrors : Mirrors L s m) (hclear : L.Clear b.regs.size b₁.regs.size)
    (h : Computes types fuel b.regs.size b b₁ m (Pure.pure c) post)
    (hk : ∀ m₁, m.Later b.regs.size b₁.regs.size m₁ → Mirrors L s m₁ → post c m₁ →
      Performs types fuel L n b₁ b₂ m₁ s x post') :
    Performs types fuel L n b b₂ m s x post' := by
  intro code hadds htypes hsize
  obtain ⟨code₁, code₂, rfl, hadds₁, hadds₂, htypes₁⟩ := hadds.split hg hg' htypes
  rw [Instr.runAll_append]
  have h₁ : Realizes _ _ m post _ (.value c m.calls) :=
    h code₁ hadds₁ htypes₁ hsize
  rw [hmirrors.calls] at h₁
  generalize Instr.runAll types fuel code₁ m = out at h₁
  generalize hcalls : s.calls = calls at h₁
  cases h₁ with
  | @value _ m₁ hlater hpost =>
    have hmirrors₁ : Mirrors L s m₁ := by
      have hlaterMirrors := hmirrors.later hclear hlater
      rwa [← hcalls] at hlaterMirrors
    have h₂ := hk m₁ hlater hmirrors₁ hpost code₂ hadds₂ htypes (hlater.size.trans hsize)
    exact h₂.mono (hlater.kept.mono hn) (Nat.le_refl n) fun _ _ _ hp => hp

/-- Code that computes something that is known. -/
theorem known {c : β} {post : β → Machine → Prop} {post' : α → Machine → Prop} (hg : b.Grows b₁)
    (hmirrors : Mirrors L s m) (hclear : L.Clear b.regs.size b₁.regs.size)
    (h : Computes types fuel b.regs.size b b₁ m (Pure.pure c) post) (hx : x s = .value a s)
    (hpost : ∀ m', post c m' → post' a m') : Performs types fuel L b.regs.size b b₁ m s x post' :=
  after hg (.refl b₁) (Nat.le_refl _) hmirrors hclear h fun m₁ _ hmirrors₁ hc =>
    (pure (a := a) hmirrors₁ (hpost m₁ hc)).congr hx

/-- One instruction that goes on. -/
theorem emit {s' : Store} (m' : Machine) (hemit : Builder.emit i b = (u, b₁)) (hx : x s = .value a s')
    (hkept : m.Kept L n m') (hmirrors : Mirrors L s' m')
    (hrun : b.regs.size ≤ m.regs.size → i.run types fuel m = .done .next m' ∧ post a m') :
    Performs types fuel L n b b₁ m s x post := by
  intro code hadds htypes hsize
  have hadds' := Adds.of_emit hemit
  obtain ⟨hrun, hpost⟩ := hrun (hsize ▸ Nat.le_trans hadds'.size_le (KeepsTypes.size_le htypes))
  rw [hadds.unique hadds', Instr.runAll_singleton, hrun, hx]
  exact .value hkept hmirrors hpost

/-- An instruction that writes the register of a cell. -/
theorem writeCell {c : Operand} {j : Nat} (hemit : Builder.emit i b = (u, b₁)) (hx : x s = .value a (s.setCell j v))
    (hrun : i.run types fuel m = m.set c.reg v) (hcell : L[j]? = some c) (hmirrors : Mirrors L s m)
    (hdistinct : L.Distinct) :
    Performs types fuel L n b b₁ m s x fun _ m' => ∀ r : Reg, (∀ o ∈ L, o.reg ≠ r) → m'.regs[r]? = m.regs[r]? := by
  have hmem : c ∈ L := List.mem_of_getElem? hcell
  have hlt : c.reg < m.regs.size := (Array.getElem?_eq_some_iff.mp (hmirrors.cells j c hcell)).1
  refine emit { m with regs := m.regs.setIfInBounds c.reg v } hemit hx (.set (.inr ⟨c, hmem, rfl⟩) v)
    (hmirrors.setCell hdistinct hcell hlt v) fun hsize => ⟨?_, fun r hr => Array.getElem?_setIfInBounds_ne (hr c hmem)⟩
  rw [hrun, Machine.set, if_pos hlt]

/-- An instruction that writes a register of no cell. -/
theorem writeRegister {r : Reg} (hemit : Builder.emit i b = (u, b₁)) (hx : x s = .value a s)
    (hrun : i.run types fuel m = m.set r v) (hn : n ≤ r) (hbound : r < b.regs.size) (hclear : ∀ o ∈ L, o.reg ≠ r)
    (hmirrors : Mirrors L s m)
    (hpost : ∀ m' : Machine, m'.regs[r]? = some v → (∀ r', r ≠ r' → m'.regs[r']? = m.regs[r']?) → post a m') :
    Performs types fuel L n b b₁ m s x post := by
  refine emit { m with regs := m.regs.setIfInBounds r v } hemit hx (.set (.inl hn) v) (hmirrors.setRegister hclear v)
    fun hsize => ?_
  have hlt : r < m.regs.size := Nat.lt_of_lt_of_le hbound hsize
  refine ⟨?_, hpost _ (Array.getElem?_setIfInBounds_self_of_lt hlt) fun r' hr' => Array.getElem?_setIfInBounds_ne hr'⟩
  rw [hrun, Machine.set, if_pos hlt]

/-- An action that is only performed in a branch. -/
theorem branch {t : Prop} [Decidable t] {c : Reg} {y : Act α} {body : List Instr} {b₃ : Builder}
    (hc : m.regs[c]? = some v) (hg : (beginBlock b).2.Grows b₁) (hend : endBlock b₁ = (body, b₂))
    (hbranch : Builder.emit (.branch c (if t then body else []) (if t then [] else body)) b₂ = (u, b₃))
    (hbody : Performs types fuel L n (beginBlock b).2 b₁ m s y post) (hmirrors : Mirrors L s m) (hskip : post a m) :
    Performs types fuel L n b b₃ m s (if v.truthy = decide t then y else Pure.pure a) post := by
  intro code hadds htypes hsize
  obtain ⟨hregs, hcode, hrun⟩ := hadds.branch types fuel hc hg hend hbranch
  rw [hrun]
  split
  · exact hbody body hcode (hregs ▸ htypes) hsize
  · exact .value (.refl L n m) hmirrors hskip

end Performs

/-- An operand realizes a referent: it is the register of its cell, or a register made since a bound that holds
its datum. -/
inductive Stands (L : Layout) (n : Nat) (b : Builder) (o : Operand) : Referent → Machine → Prop
  | cell {i : Nat} {m : Machine} (hcell : L[i]? = some o) (hbound : o.reg < b.regs.size) :
      Stands L n b o (.cell i o.ty) m
  | datum {d : Datum} {m : Machine} (hfresh : n ≤ o.reg) (hholds : o.Holds b d m) : Stands L n b o (.datum d) m

namespace Stands

variable {L : Layout} {n n' : Nat} {b b' : Builder} {o : Operand} {h : Referent} {m m' : Machine} {s : Store}

section

variable (ho : Stands L n b o h m)

include ho

/-- The operand holds what the referent stands for. -/
theorem holds (hmirrors : Mirrors L s m) : o.Holds b (s.read h) m := by
  cases ho with
  | cell hcell hbound => exact ⟨hmirrors.cells _ o hcell, rfl, hbound⟩
  | datum hfresh hholds => exact hholds

/-- The types agree. -/
theorem type : h.ty = o.ty := by
  cases ho with
  | cell hcell hbound => rfl
  | datum hfresh hholds => exact hholds.type

theorem mono (hn : n' ≤ n) : Stands L n' b o h m := by
  cases ho with
  | cell hcell hbound => exact .cell hcell hbound
  | datum hfresh hholds => exact .datum (Nat.le_trans hn hfresh) hholds

theorem congr (hregs : b'.regs = b.regs) : Stands L n b' o h m := by
  cases ho with
  | cell hcell hbound => exact .cell hcell (hregs ▸ hbound)
  | datum hfresh hholds => exact .datum hfresh ⟨hholds.value, hholds.type, hregs ▸ hholds.bound⟩

/-- A register that is kept still realizes its referent. -/
theorem keep (hb : b.Grows b')
    (hregs : n ≤ o.reg → o.reg < b.regs.size → m'.regs[o.reg]? = m.regs[o.reg]?) : Stands L n b' o h m' := by
  cases ho with
  | cell hcell hbound => exact .cell hcell (Nat.lt_of_lt_of_le hbound hb.size_le)
  | datum hfresh hholds =>
    refine .datum hfresh ⟨?_, hholds.type, Nat.lt_of_lt_of_le hholds.bound hb.size_le⟩
    exact (hregs hfresh hholds.bound).trans hholds.value

/-- What is realized stays so. -/
theorem later {hi : Nat} (hclear : L.Clear n hi) (hle : b.regs.size ≤ hi) (hkept : m.Kept L b.regs.size m')
    (hb : b.Grows b') : Stands L n b' o h m' :=
  ho.keep hb fun hlo hbound => hkept.regs o.reg hbound (hclear.ne hlo (Nat.lt_of_lt_of_le hbound hle))

end

end Stands

/-- Operands realize referents, one by one. -/
def AllStand (L : Layout) (n : Nat) (b : Builder) (os : List Operand) (hs : List Referent) (m : Machine) : Prop :=
  List.Forall₂ (fun o h => Stands L n b o h m) os hs

namespace AllStand

variable {L : Layout} {n n' : Nat} {b b' : Builder} {os : List Operand} {hs : List Referent} {m m' : Machine} {s : Store}

theorem holds (h : AllStand L n b os hs m) (hmirrors : Mirrors L s m) : AllHold os b (hs.map s.read) m :=
  List.forall₂_map_right_iff.mpr (List.Forall₂.imp (fun _ _ ho => ho.holds hmirrors) h)

theorem mono (h : AllStand L n b os hs m) (hn : n' ≤ n) : AllStand L n' b os hs m :=
  List.Forall₂.imp (fun _ _ ho => ho.mono hn) h

end AllStand

end Elementwise
