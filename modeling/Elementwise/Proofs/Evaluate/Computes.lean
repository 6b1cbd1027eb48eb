import Elementwise.Proofs.Code.Jumps
import Elementwise.Proofs.Evaluate.Basic
import Elementwise.Proofs.Generate.Builder

/-!
# Code that computes data

When the code between two builders realizes a computation: run on a machine, it ends as the computation
ends, with the same native calls, keeps the element and the registers that were there before, and leaves
the result in registers. Such code is put together with `Computes.bind`; every step of the builder has
one lemma.
-/

namespace Elementwise

/-- A later machine of a run that kept the element, and the registers outside a range. -/
structure Machine.Later (lo hi : Nat) (m m' : Machine) : Prop where
  size : m'.regs.size = m.regs.size
  regs : ∀ r : Reg, r < lo ∨ hi ≤ r → m'.regs[r]? = m.regs[r]?
  state : m'.state = m.state

namespace Machine.Later

variable {lo lo' hi hi' : Nat} {m m₁ m₂ : Machine}

theorem refl (lo hi : Nat) (m : Machine) : m.Later lo hi m := ⟨rfl, fun _ _ => rfl, rfl⟩

theorem trans (h : m.Later lo hi m₁) (h' : m₁.Later lo hi m₂) : m.Later lo hi m₂ :=
  ⟨h'.size.trans h.size, fun r hr => (h'.regs r hr).trans (h.regs r hr), h'.state.trans h.state⟩

theorem mono (h : m.Later lo' hi' m₁) (hlo : lo ≤ lo') (hhi : hi' ≤ hi) : m.Later lo hi m₁ := by
  refine ⟨h.size, fun r hr => h.regs r ?_, h.state⟩
  exact hr.imp (fun hr => Nat.lt_of_lt_of_le hr hlo) fun hr => Nat.le_trans hhi hr

/-- Registers outside a range are kept when one inside it is written. -/
theorem set {r : Reg} (hlo : lo ≤ r) (hhi : r < hi) (v : Value) (calls : List NativeCall) :
    m.Later lo hi { m with regs := m.regs.setIfInBounds r v, calls } := by
  refine ⟨Array.size_setIfInBounds, fun r' hr' => Array.getElem?_setIfInBounds_ne ?_, rfl⟩
  rintro rfl
  exact hr'.elim (Nat.not_lt.mpr hlo) (Nat.not_le.mpr hhi)

end Machine.Later

/-- How the end of a run matches the end of a computation on the element of a machine. -/
inductive Realizes {α : Type} (lo hi : Nat) (m : Machine) (post : α → Machine → Prop) :
    Outcome Flow → Answer α → Prop
  | value {a : α} {m' : Machine} (hlater : m.Later lo hi m') (hpost : post a m') :
      Realizes lo hi m post (.done .next m') (.value a m'.calls)
  | fault {fault : Fault} {m' : Machine} (hlater : m.Later lo hi m') :
      Realizes lo hi m post (.failed fault m') (.fault fault m'.calls)

/-- A run from a later machine, told from an earlier one. -/
theorem Realizes.mono {α : Type} {lo lo' hi : Nat} {m m₀ : Machine} {post post' : α → Machine → Prop}
    {out : Outcome Flow} {answer : Answer α} (h : Realizes lo' hi m post out answer) (hlater : m₀.Later lo hi m)
    (hlo : lo ≤ lo') (hpost : ∀ a m', m.Later lo' hi m' → post a m' → post' a m') :
    Realizes lo hi m₀ post' out answer := by
  cases h with
  | value h hp => exact .value (hlater.trans (h.mono hlo (Nat.le_refl _))) (hpost _ _ h hp)
  | fault h => exact .fault (hlater.trans (h.mono hlo (Nat.le_refl _)))

/-- Instructions after instructions. -/
theorem Instr.runAll_append (types : Array Ty) (fuel : Nat) (code₁ code₂ : List Instr) (m : Machine) :
    runAll types fuel (code₁ ++ code₂) m =
      match runAll types fuel code₁ m with
      | .done .next m => runAll types fuel code₂ m
      | other => other := by
  induction code₁ generalizing m with
  | nil => rfl
  | cons i rest ih =>
    simp only [List.cons_append, runAll]
    cases i.run types fuel m with
    | done flow m' =>
      cases flow with
      | next => exact ih m'
      | jump word => rfl
    | failed fault m' => rfl
    | exhausted => rfl

/-- A single instruction. -/
theorem Instr.runAll_singleton (types : Array Ty) (fuel : Nat) (i : Instr) (m : Machine) :
    runAll types fuel [i] m = i.run types fuel m := by
  simp only [runAll]
  split
  · next h => exact h.symm
  · rfl

/-- Registers whose types are kept stay. -/
theorem KeepsTypes.size_le {types types' : Array Ty} (h : KeepsTypes types types') : types.size ≤ types'.size := by
  by_contra hlt
  have hget := h types'.size types[types'.size] (Array.getElem?_eq_getElem (by omega))
  exact absurd (Array.getElem?_eq_some_iff.mp hget).1 (Nat.lt_irrefl _)

namespace Builder

variable {code : List Instr}

/-- A builder that has more code in its open block. -/
def Grows (b b' : Builder) : Prop := ∃ code, b.Adds code b'

theorem Adds.unique {b b' : Builder} {code' : List Instr} (h : b.Adds code b') (h' : b.Adds code' b') :
    code = code' := List.append_cancel_left (h.current.symm.trans h'.current)

theorem Adds.of_emit {i : Instr} {u : Unit} {b b' : Builder} (h : Builder.emit i b = (u, b')) : b.Adds [i] b' := by
  obtain ⟨-, rfl⟩ := Prod.mk.inj h
  exact .emit b i

theorem Adds.size_le {b b' : Builder} (h : b.Adds code b') : b.regs.size ≤ b'.regs.size :=
  KeepsTypes.size_le h.types

namespace Grows

variable {b b₁ b₂ : Builder}

theorem refl (b : Builder) : b.Grows b := ⟨[], .refl b⟩

theorem trans (h : b.Grows b₁) (h' : b₁.Grows b₂) : b.Grows b₂ := by
  obtain ⟨code, hcode⟩ := h
  obtain ⟨code', hcode'⟩ := h'
  exact ⟨_, hcode.trans hcode'⟩

/-- A register keeps its type. -/
theorem types (h : b.Grows b₁) : KeepsTypes b.regs b₁.regs := by
  obtain ⟨code, hcode⟩ := h
  exact hcode.types

/-- Registers stay. -/
theorem size_le (h : b.Grows b₁) : b.regs.size ≤ b₁.regs.size := KeepsTypes.size_le h.types

/-- A block that was filled and closed. -/
theorem block {body : List Instr} (h : (beginBlock b).2.Grows b₁) (hend : endBlock b₁ = (body, b₂)) :
    (beginBlock b).2.Adds body b₁ ∧ b.Adds [] b₂ ∧ b₂.regs = b₁.regs := by
  obtain ⟨_, hcode⟩ := h
  obtain ⟨rfl, hclosed⟩ := hcode.block hend
  exact ⟨hcode, hclosed⟩

/-- A block that was filled and closed, and an instruction that runs it. -/
theorem closed {body : List Instr} {i : Instr} {u : Unit} {b₃ : Builder} (h : (beginBlock b).2.Grows b₁)
    (hend : endBlock b₁ = (body, b₂)) (hemit : emit i b₂ = (u, b₃)) : b.Adds [i] b₃ ∧ b₃.regs = b₁.regs := by
  obtain ⟨-, hadds, hregs⟩ := h.block hend
  exact ⟨hadds.trans (.of_emit hemit), (congrArg Builder.regs (Prod.mk.inj hemit).2).symm.trans hregs⟩

end Grows

/-- Code that was added in two steps is the code of the first and then that of the second. -/
theorem Adds.split {types : Array Ty} {b b₁ b₂ : Builder} (hadds : b.Adds code b₂) (hg : b.Grows b₁)
    (hg' : b₁.Grows b₂) (htypes : KeepsTypes b₂.regs types) : ∃ code₁ code₂, code = code₁ ++ code₂ ∧
      b.Adds code₁ b₁ ∧ b₁.Adds code₂ b₂ ∧ KeepsTypes b₁.regs types := by
  have htypes₁ : KeepsTypes b₁.regs types := fun r ty hr => htypes r ty (hg'.types r ty hr)
  obtain ⟨code₁, hadds₁⟩ := hg
  obtain ⟨code₂, hadds₂⟩ := hg'
  exact ⟨code₁, code₂, hadds.unique (hadds₁.trans hadds₂), hadds₁, hadds₂, htypes₁⟩

/-- A block that was closed and branches on a register either runs or is skipped. -/
theorem Adds.branch {t : Prop} [Decidable t] {c : Reg} {v : Value} {m : Machine} {body : List Instr} {u : Unit}
    {b b₁ b₂ b₃ : Builder} (hadds : b.Adds code b₃) (types : Array Ty) (fuel : Nat) (hc : m.regs[c]? = some v)
    (hg : (beginBlock b).2.Grows b₁) (hend : endBlock b₁ = (body, b₂))
    (hbranch : Builder.emit (.branch c (if t then body else []) (if t then [] else body)) b₂ = (u, b₃)) :
    b₃.regs = b₁.regs ∧ (beginBlock b).2.Adds body b₁ ∧
      Instr.runAll types fuel code m = if v.truthy = decide t then Instr.runAll types fuel body m else .done .next m := by
  obtain ⟨hclosed, hregs⟩ := hg.closed hend hbranch
  refine ⟨hregs, (hg.block hend).1, ?_⟩
  rw [hadds.unique hclosed, Instr.runAll_singleton]
  by_cases ht : t <;> cases hv : v.truthy <;> simp [Instr.run, hc, ht, hv, Instr.runAll]

section

variable {inBody : Bool} {b b₁ b₂ : Builder} {α β : Type}

variable {action : BuildM α}

/-- Code was added whose jumps are placed. -/
def Places (inBody : Bool) (b b' : Builder) : Prop := ∃ code, b.Adds code b' ∧ Instr.jumpsPlacedAll inBody code = true

namespace Places

/-- Code is added. -/
theorem grows (h : b.Places inBody b₁) : b.Grows b₁ := by
  obtain ⟨code, hcode, -⟩ := h
  exact ⟨code, hcode⟩

theorem refl (b : Builder) : b.Places inBody b := ⟨[], .refl b, rfl⟩

theorem trans (h : b.Places inBody b₁) (h' : b₁.Places inBody b₂) : b.Places inBody b₂ := by
  obtain ⟨code, hcode, hplaced⟩ := h
  obtain ⟨code', hcode', hplaced'⟩ := h'
  exact ⟨_, hcode.trans hcode', Instr.jumpsPlacedAll_append.mpr ⟨hplaced, hplaced'⟩⟩

/-- Code that may stand anywhere. -/
theorem anywhere (h : b.Places false b₁) : b.Places inBody b₁ := by
  obtain ⟨code, hcode, hplaced⟩ := h
  exact ⟨code, hcode, Instr.jumpsPlacedAll_inBody hplaced⟩

theorem emit {i : Instr} (hi : i.jumpsPlaced inBody = true) (b : Builder) : b.Places inBody (Builder.emit i b).2 :=
  ⟨[i], .emit b i, Instr.jumpsPlacedAll_cons.mpr ⟨hi, rfl⟩⟩

theorem of_emit {i : Instr} {u : Unit} (h : Builder.emit i b = (u, b₁)) (hi : i.jumpsPlaced inBody = true) :
    b.Places inBody b₁ := by
  have hplaces := emit hi b
  rwa [h] at hplaces

/-- Code in a block of its own, which is given back. -/
theorem block {body : List Instr} (h : (beginBlock b).2.Places inBody b₁) (hend : endBlock b₁ = (body, b₂)) :
    Instr.jumpsPlacedAll inBody body = true ∧ ∀ outside, b.Places outside b₂ := by
  obtain ⟨code, hcode, hplaced⟩ := h
  obtain ⟨rfl, hadds, -⟩ := hcode.block hend
  exact ⟨hplaced, fun _ => ⟨[], hadds, rfl⟩⟩

end Places

/-- A step of building adds code whose jumps are placed wherever it stands. -/
class Placing (action : BuildM α) : Prop where
  places : ∀ b : Builder, b.Places false (action b).2

theorem Placing.of_eq [hp : Placing action] {b b' : Builder} {a : α} (h : action b = (a, b')) : b.Places inBody b' := by
  have hplaces := hp.places b
  rw [h] at hplaces
  exact hplaces.anywhere

theorem Grows.of_eq [hp : Placing action] {a : α} (h : action b = (a, b₁)) : b.Grows b₁ :=
  (Placing.of_eq h : b.Places false b₁).grows

theorem Grows.of_emit {i : Instr} {u : Unit} (h : emit i b = (u, b₁)) : b.Grows b₁ := ⟨_, .of_emit h⟩

/-- A step of building only adds code to the open block. -/
class Growing (action : BuildM α) : Prop where
  grows : ∀ b : Builder, b.Grows (action b).2

instance [hp : Placing action] : Growing action := ⟨fun b => (hp.places b).grows⟩
instance (i : Instr) : Growing (Builder.emit i) := ⟨fun b => ⟨[i], .emit b i⟩⟩

instance (a : α) : Placing (pure a) := ⟨Places.refl⟩

instance (action : BuildM α) (k : α → BuildM β) [hp : Placing action] [hk : ∀ a, Placing (k a)] :
    Placing (action >>= k) := ⟨fun b => (hp.places b).trans ((hk _).places _)⟩

instance (p : Prop) [Decidable p] (x y : BuildM α) [hx : Placing x] [hy : Placing y] : Placing (if p then x else y) := by
  split
  · exact hx
  · exact hy

instance (f : α → BuildM β) [∀ x, Placing (f x)] (xs : List α) : Placing (xs.mapM f) := by
  induction xs with
  | nil =>
    rw [List.mapM_nil]
    infer_instance
  | cons x xs ih =>
    rw [List.mapM_cons]
    infer_instance

theorem Placing.emit {i : Instr} (hi : i.jumpsPlaced false = true) : Placing (Builder.emit i) := ⟨Places.emit hi⟩

/-- An instruction for a new register. -/
theorem Placing.define {ty : Ty} (mk : Reg → Instr) (hmk : ∀ r, (mk r).jumpsPlaced false = true) : Placing (do
    let dst ← alloc ty
    Builder.emit (mk dst.reg)
    return dst) :=
  ⟨fun b => Places.trans ⟨[], .alloc b ty, rfl⟩ (Places.emit (hmk _) _)⟩

instance (ty : Ty) : Placing (alloc ty) := ⟨fun b => ⟨[], .alloc b ty, rfl⟩⟩
instance (v : Value) : Placing (constant v) := .define (fun r => .const r v) fun _ => rfl
instance (v : Value) (ty : Ty) : Placing (constantAs v ty) := inferInstanceAs (Placing (constant _))
instance (n : Int32) : Placing (int n) := inferInstanceAs (Placing (constant _))
instance (dst src : Operand) : Placing (assign dst src) := .emit rfl
instance (op : BinaryOp) (l r : Operand) (ty : Ty) : Placing (binary op l r ty) :=
  .define (fun dst => .binary dst op l.reg r.reg) fun _ => rfl
instance (op : UnaryOp) (o : Operand) (ty : Ty) : Placing (unary op o ty) :=
  .define (fun dst => .unary dst op o.reg) fun _ => rfl
instance (os : List Operand) (ty : Ty) : Placing (pack os ty) :=
  .define (fun dst => .pack dst (os.map Operand.reg)) fun _ => rfl
instance (o i : Operand) : Placing (extract o i) := .define (fun dst => .extract dst o.reg i.reg) fun _ => rfl
instance (o : Operand) (i : Nat) : Placing (extractAt o i) := by unfold extractAt; infer_instance
instance (o i v : Operand) : Placing (insert o i v) := .emit rfl
instance (slot : Nat) (ty : Ty) : Placing (readSlot slot ty) := .define (fun dst => .read dst slot) fun _ => rfl
instance (slot : Nat) (o : Operand) : Placing (writeSlot slot o) := .emit rfl
instance (op : Intrinsic) : Placing (intrinsic op) := .define (fun dst => .intrinsic dst op) fun _ => rfl
instance (name : String) (body : NativeBody) (os : List Operand) (ret : Ty) : Placing (callNative name body os ret) :=
  .define (fun dst => .call dst name body (os.map Operand.reg)) fun _ => rfl

instance (o : Operand) (ty : Ty) : Placing (convert o ty) := by
  unfold convert
  split
  · infer_instance
  · exact .define (fun dst => .convert dst o.reg) fun _ => rfl

/-- Code in a block of its own, and then a step that is given the code. -/
theorem Placing.inBlock [hp : Placing action] {k : α × List Instr → BuildM β}
    (hk : ∀ a body, Instr.jumpsPlacedAll false body = true → Placing (k (a, body))) :
    Placing (inBlock action >>= k) := by
  refine ⟨fun b => ?_⟩
  obtain ⟨hplaced, hblock⟩ := (hp.places (beginBlock b).2).block rfl
  exact (hblock false).trans ((hk _ _ hplaced).places _)

end

/-- A step of building gives a register that it made. -/
class Fresh (action : BuildM Operand) : Prop where
  fresh : ∀ b : Builder, b.regs.size ≤ (action b).1.reg

theorem Fresh.of_eq {action : BuildM Operand} [hf : Fresh action] {b b' : Builder} {o : Operand}
    (h : action b = (o, b')) : b.regs.size ≤ o.reg := by
  have hfresh := hf.fresh b
  rwa [h] at hfresh

instance {α : Type} (action : BuildM α) (k : α → BuildM Operand) [hg : Placing action] [hk : ∀ a, Fresh (k a)] :
    Fresh (action >>= k) := ⟨fun b => Nat.le_trans (hg.places b).grows.size_le ((hk _).fresh _)⟩

instance (v : Value) : Fresh (constant v) := ⟨fun _ => Nat.le_refl _⟩
instance (op : BinaryOp) (l r : Operand) (ty : Ty) : Fresh (binary op l r ty) := ⟨fun _ => Nat.le_refl _⟩
instance (op : UnaryOp) (o : Operand) (ty : Ty) : Fresh (unary op o ty) := ⟨fun _ => Nat.le_refl _⟩
instance (os : List Operand) (ty : Ty) : Fresh (pack os ty) := ⟨fun _ => Nat.le_refl _⟩
instance (o i : Operand) : Fresh (extract o i) := ⟨fun _ => Nat.le_refl _⟩
instance (slot : Nat) (ty : Ty) : Fresh (readSlot slot ty) := ⟨fun _ => Nat.le_refl _⟩
instance (op : Intrinsic) : Fresh (intrinsic op) := ⟨fun _ => Nat.le_refl _⟩
instance (name : String) (body : NativeBody) (os : List Operand) (ret : Ty) : Fresh (callNative name body os ret) :=
  ⟨fun _ => Nat.le_refl _⟩

end Builder

/-- The code that was added between two builders realizes a computation. -/
def Computes {α : Type} (types : Array Ty) (fuel n : Nat) (b b' : Builder) (m : Machine) (x : Eval α)
    (post : α → Machine → Prop) : Prop :=
  ∀ code, b.Adds code b' → KeepsTypes b'.regs types → m.regs.size = types.size →
    Realizes n b'.regs.size m post (Instr.runAll types fuel code m) (x m.calls)

/-- Later than later, where the second run used registers that were made after the first. -/
theorem Machine.Later.then {m m₁ m₂ : Machine} {b b₁ b₂ : Builder} (h : m.Later b.regs.size b₁.regs.size m₁)
    (h' : m₁.Later b₁.regs.size b₂.regs.size m₂) (hb : b.Grows b₁) (hb' : b₁.Grows b₂) :
    m.Later b.regs.size b₂.regs.size m₂ :=
  (h.mono (Nat.le_refl _) hb'.size_le).trans (h'.mono hb.size_le (Nat.le_refl _))

/-- An operand holds a datum in a machine, and its register was made. -/
structure Operand.Holds (o : Operand) (b : Builder) (d : Datum) (m : Machine) : Prop where
  value : m.regs[o.reg]? = some d.value
  type : d.ty = o.ty
  bound : o.reg < b.regs.size

/-- What an operand holds stays. -/
theorem Operand.Holds.later {o : Operand} {b b' : Builder} {d : Datum} {m m' : Machine} (h : o.Holds b d m)
    {hi : Nat} (hlater : m.Later b.regs.size hi m') (hb : b.Grows b') : o.Holds b' d m' :=
  ⟨(hlater.regs o.reg (.inl h.bound)).trans h.value, h.type, Nat.lt_of_lt_of_le h.bound hb.size_le⟩

/-- Operands hold data, one by one. -/
def AllHold (os : List Operand) (b : Builder) (ds : List Datum) (m : Machine) : Prop :=
  List.Forall₂ (fun o d => o.Holds b d m) os ds

namespace AllHold

variable {os : List Operand} {ds : List Datum} {b b' : Builder} {m m' : Machine}

/-- What operands hold stays. -/
theorem later (h : AllHold os b ds m) {hi : Nat} (hlater : m.Later b.regs.size hi m') (hb : b.Grows b') :
    AllHold os b' ds m' :=
  List.Forall₂.imp (fun _ _ ho => ho.later hlater hb) h

/-- The types of data are those of the operands that hold them. -/
theorem types_eq (h : AllHold os b ds m) : ds.map Datum.ty = os.map Operand.ty := by
  induction h with
  | nil => rfl
  | cons ho _ ih => rw [List.map_cons, List.map_cons, ho.type, ih]

/-- The values of operands can be fetched. -/
theorem fetch (h : AllHold os b ds m) : m.fetch (os.map Operand.reg) = .ok (ds.map Datum.value) := by
  induction h with
  | nil => rfl
  | cons ho _ ih => simp only [List.map_cons, Machine.fetch, ho.value, ih]

end AllHold

namespace Computes

open Builder

variable {types : Array Ty} {fuel n n' : Nat} {b b₁ b₂ : Builder} {m : Machine} {α β : Type}

variable {a : α} {post : α → Machine → Prop} {post' : β → Machine → Prop} {x : Eval α}

theorem pure (h : post a m) : Computes types fuel n b b m (Pure.pure a) post := by
  intro code hadds _ _
  rw [hadds.unique (.refl b)]
  exact .value (.refl _ _ m) h

theorem bindWithin {y : α → Eval β} (hg : b.Grows b₁) (hg' : b₁.Grows b₂) (hn : n ≤ b.regs.size) (hn' : n ≤ n')
    (h : Computes types fuel b.regs.size b b₁ m x post)
    (hk : ∀ a m₁, m.Later b.regs.size b₁.regs.size m₁ → post a m₁ → Computes types fuel n' b₁ b₂ m₁ (y a) post') :
    Computes types fuel n b b₂ m (x >>= y) post' := by
  intro code hadds htypes hsize
  have hsize₂ := hg'.size_le
  obtain ⟨code₁, code₂, rfl, hadds₁, hadds₂, htypes₁⟩ := hadds.split hg hg' htypes
  rw [Instr.runAll_append]
  have h₁ := h code₁ hadds₁ htypes₁ hsize
  rw [Eval.bind_apply]
  generalize Instr.runAll types fuel code₁ m = out at h₁
  generalize x m.calls = answer at h₁
  cases h₁ with
  | fault hlater => exact .fault (hlater.mono hn hsize₂)
  | @value a m₁ hlater hpost =>
    have h₂ := hk a m₁ hlater hpost code₂ hadds₂ htypes (hlater.size.trans hsize)
    exact h₂.mono (hlater.mono hn hsize₂) hn' fun _ _ _ hp => hp

theorem bind {y : α → Eval β} (hg : b.Grows b₁) (hg' : b₁.Grows b₂)
    (h : Computes types fuel b.regs.size b b₁ m x post)
    (hk : ∀ a m₁, m.Later b.regs.size b₁.regs.size m₁ → post a m₁ →
      Computes types fuel b₁.regs.size b₁ b₂ m₁ (y a) post') :
    Computes types fuel b.regs.size b b₂ m (x >>= y) post' :=
  bindWithin hg hg' (Nat.le_refl _) hg.size_le h hk

/-- Another result that is known may be told instead. -/
theorem retold {a' : β} (h : Computes types fuel n b b₁ m (Pure.pure a) post)
    (hpost : ∀ m', m.Later n b₁.regs.size m' → post a m' → post' a' m') :
    Computes types fuel n b b₁ m (Pure.pure a') post' := by
  intro code hadds htypes hsize
  have h₁ : Realizes n _ m post _ (.value a m.calls) := h code hadds htypes hsize
  generalize Instr.runAll types fuel code m = out at h₁ ⊢
  generalize m.calls = calls at h₁ ⊢
  cases h₁ with
  | value hlater hp => exact .value hlater (hpost _ hlater hp)

/-- The result of a computation that is known. -/
theorem result (h : Computes types fuel n b b₁ m (Pure.pure a) post) :
    Computes types fuel n b b₁ m (Pure.pure a) fun a' m' => a' = a ∧ post a' m' :=
  h.retold fun _ _ hp => ⟨rfl, hp⟩

/-- Code after code whose result is known. -/
theorem before {y : Eval β} (hg : b.Grows b₁) (hg' : b₁.Grows b₂)
    (h : Computes types fuel b.regs.size b b₁ m (Pure.pure a) post)
    (hk : ∀ m₁, m.Later b.regs.size b₁.regs.size m₁ → post a m₁ → Computes types fuel b₁.regs.size b₁ b₂ m₁ y post') :
    Computes types fuel b.regs.size b b₂ m y post' :=
  bind (y := fun _ => y) hg hg' h.result fun _ m₁ hlater ha => hk m₁ hlater (ha.1 ▸ ha.2)

/-- A computation that is only made in a branch. -/
theorem branch {t : Prop} [Decidable t] {c : Reg} {v : Value} {y : Eval α} {body : List Instr} {u : Unit}
    {b₃ : Builder} (hc : m.regs[c]? = some v) (hg : (beginBlock b).2.Grows b₁) (hend : endBlock b₁ = (body, b₂))
    (hbranch : emit (.branch c (if t then body else []) (if t then [] else body)) b₂ = (u, b₃))
    (hbody : Computes types fuel n (beginBlock b).2 b₁ m y post) (hskip : post a m) :
    Computes types fuel n b b₃ m (if v.truthy = decide t then y else Pure.pure a) post := by
  intro code hadds htypes hsize
  obtain ⟨hregs, hcode, hrun⟩ := hadds.branch types fuel hc hg hend hbranch
  rw [hrun, hregs]
  split
  · exact hbody body hcode (hregs ▸ htypes) hsize
  · exact .value (.refl _ _ m) hskip

theorem weaken {post' : α → Machine → Prop} (h : Computes types fuel n b b₁ m x post)
    (hpost : ∀ a m', m.Later n b₁.regs.size m' → post a m' → post' a m') : Computes types fuel n b b₁ m x post' :=
  fun code hadds htypes hsize => (h code hadds htypes hsize).mono (.refl _ _ m) (Nat.le_refl n) hpost

end Computes

/-- A step of building adds code that realizes a computation; `post` holds of its result, the builder, the
result of the computation and the machine after it. -/
def Does {α γ : Type} (types : Array Ty) (fuel : Nat) (b : Builder) (action : BuildM α) (m : Machine) (x : Eval γ)
    (post : α → Builder → γ → Machine → Prop) : Prop :=
  Computes types fuel b.regs.size b (action b).2 m x (post (action b).1 (action b).2)

namespace Does

open Builder

variable {types : Array Ty} {fuel : Nat} {b b' : Builder} {m : Machine} {α β γ δ : Type}

variable {post : α → Builder → γ → Machine → Prop}

theorem pure {a : α} {c : γ} (h : post a b c m) :
    Does types fuel b (Pure.pure a) m (Pure.pure c) post := Computes.pure h

/-- A step after one whose result is known. -/
theorem before {action : BuildM α} {k : α → BuildM β} [hg : Placing action] [hg' : ∀ a, Placing (k a)] {c : γ}
    {x : Eval δ} {post' : β → Builder → δ → Machine → Prop} (h : Does types fuel b action m (Pure.pure c) post)
    (hk : ∀ a b₁ m₁, b.Grows b₁ → m.Later b.regs.size b₁.regs.size m₁ → post a b₁ c m₁ →
      Does types fuel b₁ (k a) m₁ x post') :
    Does types fuel b (action >>= k) m x post' :=
  Computes.before (hg.places b).grows ((hg' _).places _).grows h fun m₁ hlater hc => hk _ _ m₁ (hg.places b).grows hlater hc

/-- What a step adds, from its result. -/
theorem computes {action : BuildM α} {x : Eval γ} (h : Does types fuel b action m x post) {a : α}
    (heq : action b = (a, b')) : Computes types fuel b.regs.size b b' m x (post a b') := by
  unfold Does at h
  rwa [heq] at h

theorem mapM {f : α → BuildM Operand} [∀ x, Placing (f x)] {xs : List α} {ds : List Datum}
    (h : List.Forall₂ (fun x d => ∀ b₁ m₁, b.Grows b₁ → m.Later b.regs.size b₁.regs.size m₁ →
      Does types fuel b₁ (f x) m₁ (Pure.pure d) Operand.Holds) xs ds) :
    Does types fuel b (xs.mapM f) m (Pure.pure ds) AllHold := by
  induction xs generalizing ds b m with
  | nil =>
    cases h
    exact pure .nil
  | cons x xs ih =>
    cases h with
    | @cons _ d _ ds hx hrest =>
      rw [List.mapM_cons]
      refine (hx b m (.refl b) (.refl _ _ m)).before fun o b₁ m₁ hb hlater ho => ?_
      have hrest : Does types fuel b₁ (xs.mapM f) m₁ (Pure.pure ds) AllHold :=
        ih (hrest.imp fun _ _ hx' b₂ m₂ hb₂ hlater₂ => hx' b₂ m₂ (hb.trans hb₂) (hlater.then hlater₂ hb hb₂))
      exact hrest.before fun os b₂ m₂ hb₂ hlater₂ hos => pure (.cons (ho.later hlater₂ hb₂) hos)

end Does

section

open Builder

variable {types : Array Ty} {fuel : Nat} {b : Builder} {m : Machine} {o l r : Operand} {d dl dr : Datum}

variable {ty : Ty}

/-- An instruction for a new register realizes what it computes. -/
theorem does_defineWith (mk : Reg → Instr) {x : Eval Datum}
    (hrun : ∀ r : Reg, r < m.regs.size → types[r]? = some ty →
      Realizes r (r + 1) m (fun d m' => m'.regs[r]? = some d.value ∧ d.ty = ty) ((mk r).run types fuel m) (x m.calls)) :
    Does types fuel b (do
      let dst ← alloc ty
      emit (mk dst.reg)
      return dst) m x Operand.Holds := by
  intro code hadds htypes hsize
  rw [hadds.unique ((Adds.alloc b ty).trans (Adds.emit _ _)), List.nil_append, Instr.runAll_singleton]
  have hnew : (b.regs.push ty)[b.regs.size]? = some ty := by simp
  have htype : types[b.regs.size]? = some ty := htypes _ _ hnew
  have hlt : b.regs.size < m.regs.size := hsize ▸ (Array.getElem?_eq_some_iff.mp htype).1
  have hbound : b.regs.size < (b.regs.push ty).size := by simp
  change Realizes _ (b.regs.push ty).size m _ ((mk b.regs.size).run types fuel m) _
  rw [Array.size_push]
  exact (hrun b.regs.size hlt htype).mono (.refl _ _ m) (Nat.le_refl _) fun _ _ _ hpost => ⟨hpost.1, hpost.2, hbound⟩

/-- An instruction that writes a value to a new register. -/
theorem does_define (mk : Reg → Instr) {v : Value}
    (hrun : ∀ r : Reg, types[r]? = some ty → (mk r).run types fuel m = m.set r v) :
    Does types fuel b (do
      let dst ← alloc ty
      emit (mk dst.reg)
      return dst) m (pure ⟨ty, v⟩) Operand.Holds := by
  refine does_defineWith mk fun r hlt htype => ?_
  rw [hrun r htype, Machine.set, if_pos hlt]
  exact .value (.set (Nat.le_refl r) (Nat.lt_succ_self r) v m.calls) ⟨Array.getElem?_setIfInBounds_self_of_lt hlt, rfl⟩

theorem does_constant (v : Value) : Does types fuel b (constant v) m (pure (.ofValue v)) Operand.Holds :=
  does_define (fun r => .const r v) fun _ _ => rfl

/-- A conversion. -/
theorem does_convert (h : o.Holds b d m) (goal : Ty) :
    Does types fuel b (convert o goal) m (pure (d.convert goal)) Operand.Holds := by
  unfold convert Datum.convert
  rw [h.type]
  split
  · exact .pure h
  · refine does_define (fun r => .convert r o.reg) fun r htype => ?_
    simp only [Instr.run, Machine.withReg, h.value, htype, Option.getD_some]

/-- An operator on two operands. -/
theorem does_binary (hl : l.Holds b dl m) (hr : r.Holds b dr m) (op : BinaryOp) (ty : Ty) :
    Does types fuel b (binary op l r ty) m (pure (.binary op dl dr ty)) Operand.Holds :=
  does_define (fun dst => .binary dst op l.reg r.reg) fun _ _ => by
    simp only [Instr.run, Machine.withReg, hl.value, hr.value]

/-- An operator on one operand. -/
theorem does_unary (h : o.Holds b d m) (op : UnaryOp) (ty : Ty) :
    Does types fuel b (unary op o ty) m (pure ⟨ty, Value.unary op d.value⟩) Operand.Holds :=
  does_define (fun r => .unary r op o.reg) fun _ _ => by simp only [Instr.run, Machine.withReg, h.value]

/-- An array from its components. -/
theorem does_pack {os : List Operand} {ds : List Datum} (h : AllHold os b ds m) (ty : Ty) :
    Does types fuel b (pack os ty) m (pure (.ofComponents ds ty)) Operand.Holds :=
  does_define (fun r => .pack r (os.map Operand.reg)) fun _ htype => by
    simp only [Instr.run, Machine.withRegs, h.fetch, htype, Option.getD_some]

/-- A component of an array. -/
theorem does_extract (h : l.Holds b dl m) (hr : r.Holds b dr m) :
    Does types fuel b (extract l r) m (pure (dl.component dr)) Operand.Holds := by
  rw [Datum.component, h.type]
  refine does_define (fun dst => .extract dst l.reg r.reg) fun _ htype => ?_
  simp only [Instr.run, Machine.withReg, h.value, hr.value, htype, Option.getD_some]

/-- A component of an array at a constant index. -/
theorem does_extractAt (h : l.Holds b dl m) (i : Nat) :
    Does types fuel b (extractAt l i) m (pure (dl.component (.ofValue (.int32 (Int32.ofInt i))))) Operand.Holds :=
  (does_constant (.int32 (Int32.ofInt i))).before fun _ _ _ hb hlater hj => does_extract (h.later hlater hb) hj

/-- The value of a slot. -/
theorem does_readSlot (slot : Nat) (ty : Ty) :
    Does types fuel b (readSlot slot ty) m (pure ⟨ty, (m.state.read? slot).getD (.zero ty)⟩) Operand.Holds :=
  does_define (fun r => .read r slot) fun _ htype => by simp only [Instr.run, htype, Option.getD_some]

/-- What the voxel provides. -/
theorem does_intrinsic (op : Intrinsic) :
    Does types fuel b (intrinsic op) m (pure ⟨op.ty, op.value (m.state.coord.getD ⟨0, 0, 0⟩)⟩) Operand.Holds :=
  does_define (fun r => .intrinsic r op) fun _ _ => rfl

/-- A call of a native body. -/
theorem does_callNative {os : List Operand} {ds : List Datum} (h : AllHold os b ds m) (name : String)
    (body : NativeBody) (ret : Ty) :
    Does types fuel b (callNative name body os ret) m (Eval.native name body ds ret) Operand.Holds := by
  refine does_defineWith (fun r => .call r name body (os.map Operand.reg)) fun r hlt _ => ?_
  simp only [Instr.run, Machine.withRegs, h.fetch, Machine.callNative, Eval.native]
  cases body (ds.map Datum.value) with
  | none => exact .fault ⟨rfl, fun _ _ => rfl, rfl⟩
  | some result =>
    simp only [Machine.set, if_pos hlt]
    exact .value (.set (Nat.le_refl r) (Nat.lt_succ_self r) _ _) ⟨Array.getElem?_setIfInBounds_self_of_lt hlt, rfl⟩

/-- A copy in a new register. -/
theorem computes_copy {result : Operand} {u : Unit} {b₁ b₂ : Builder} (halloc : alloc ty b = (result, b₁))
    (hassign : assign result o b₁ = (u, b₂)) (ho : o.Holds b d m) (hty : d.ty = ty) :
    Computes types fuel b.regs.size b b₂ m (pure d) (result.Holds b₂) := by
  obtain ⟨rfl, rfl⟩ := Prod.mk.inj halloc
  obtain ⟨-, rfl⟩ := Prod.mk.inj hassign
  subst hty
  exact does_define (fun r => .copy r o.reg) fun _ _ => by simp only [Instr.run, Machine.withReg, ho.value]

/-- A register that is overwritten. -/
theorem computes_overwrite {n : Nat} {result : Operand} {u : Unit} {b' : Builder} (hassign : assign result o b = (u, b'))
    (hn : n ≤ result.reg) (hbound : result.reg < b.regs.size) (ho : m.regs[o.reg]? = some d.value)
    (hty : d.ty = result.ty) : Computes types fuel n b b' m (pure d) (result.Holds b') := by
  intro code hadds htypes hsize
  have hadds' := Adds.of_emit hassign
  have hbound' : result.reg < b'.regs.size := Nat.lt_of_lt_of_le hbound hadds'.size_le
  have hlt : result.reg < m.regs.size := hsize ▸ Nat.lt_of_lt_of_le hbound' (KeepsTypes.size_le htypes)
  rw [hadds.unique hadds', Instr.runAll_singleton]
  simp only [Instr.run, Machine.withReg, ho, Machine.set, if_pos hlt]
  exact .value (.set hn hbound' _ m.calls) ⟨Array.getElem?_setIfInBounds_self_of_lt hlt, hty, hbound'⟩

end

end Elementwise
