import Elementwise.Proofs.Generate.Builder
import Elementwise.Proofs.Generate.Types

/-!
# Generated operations build sound code

The code of operators, of arrays, of places that are loaded and stored, and of the operands of calls:
over operands that are ready, it is sound, and its result is ready with the type that generation
expects.
-/

namespace Elementwise

open Builder

/-- What a place is made of is ready. -/
def Place.Ready (σ : Regime) (b : Builder) (W : Set Reg) : Place → Prop
  | .register o => o.Ready σ b W
  | .slot s ty => σ.slots s ty ∧ (σ.typed → ty.Regular)
  | .component base container index =>
    base.Ready σ b W ∧ ReadyAs σ base.ty container b W ∧ ReadyAs σ .int32 index b W

namespace Place.Ready

variable {σ : Regime} {b b' : Builder} {W W' : Set Reg} {p : Place}

/-- A place stays ready. -/
theorem since (h : p.Ready σ b W) (hsince : b.Since W b' W') : p.Ready σ b' W' := by
  induction p with
  | register o => exact Operand.Ready.since h hsince
  | slot s ty => exact h
  | component base container index ih =>
    exact ⟨ih h.1, ⟨h.2.1.1.since hsince, h.2.1.2⟩, h.2.2.1.since hsince, h.2.2.2⟩

/-- The type of a place that is ready is regular. -/
theorem regular (h : p.Ready σ b W) (htyped : σ.typed) : p.ty.Regular := by
  cases p with
  | register o => exact Operand.Ready.regular h htyped
  | slot s ty => exact h.2 htyped
  | component base container index => exact Ty.regular_elementTy _

end Place.Ready

namespace Generate

variable {σ : Regime} {b : Builder} {W : Set Reg} {o l r : Operand}

/-- The code of an operator on two operands. -/
theorem makes_applyBinary {op : BinaryOp} {common : Ty} (hl : l.Ready σ b W) (hr : r.Ready σ b W)
    (hfit : operandsFit op.opClass l.ty r.ty = true) (hcommon : Ty.common? l.ty r.ty = some common)
    (hop : σ.typed → op.opClass ≠ .logical) :
    Makes σ W b (applyBinary op l r common) fun o b' W' => o.Ready σ b' W' := by
  have hty (h : σ.typed) := operandTy_of_common? (c := op.opClass) hcommon (hl.regular h) (hr.regular h)
  refine (makes_convert hl fun h => ⟨(hty h).2.1, (hty h).1⟩).bind fun l' b₁ W₁ hsince hl' => ?_
  refine (makes_convert (hr.since hsince) fun h => ⟨(hty h).2.2, (hty h).1⟩).bind fun r' b₂ W₂ hsince' hr' => ?_
  refine (makes_binary ⟨hl'.1.since hsince', hl'.2⟩ hr' fun h => ?_).weaken fun o b' W' _ ho => ho.1
  exact hasType_binary (hop h) hfit hcommon (hl.regular h) (hr.regular h)

/-- The code of an operator on one operand. -/
theorem makes_applyUnary {op : UnaryOp} {ty : Ty} (ho : o.Ready σ b W) (hty : unaryTy? op o.ty = some ty) :
    Makes σ W b (applyUnary op o ty) fun o b' W' => o.Ready σ b' W' := by
  have hres (h : σ.typed) := unaryTy?_eq_some hty (ho.regular h)
  refine (makes_convert ho fun h => ⟨(hres h).2.1, (hres h).1⟩).bind fun v b₁ W₁ hsince hv => ?_
  exact (makes_unary hv fun h => ⟨(hres h).2.2, (hres h).1⟩).weaken fun o b' W' _ ho => ho.1

/-- The code of an array. -/
theorem makes_applyPack {items : List Operand} {ty : Ty} (hitems : ∀ x ∈ items, x.Ready σ b W)
    (hty : packTy? (items.map Operand.ty) = some ty) :
    Makes σ W b (applyPack items ty) fun o b' W' => o.Ready σ b' W' := by
  obtain ⟨⟨hregular, harray, hlength⟩, hscalars⟩ := packTy?_eq_some hty
  have helement : ∃ kind, ty.elementTy = .scalar kind := by
    cases ty <;> first | exact ⟨_, rfl⟩ | cases harray
  obtain ⟨kind, hkind⟩ := helement
  refine (Makes.mapM (Q := ReadyAs σ ty.elementTy) (fun o b₁ W₁ b₂ W₂ hsince ho => ho.since hsince)
    fun x hx b₁ W₁ hsince => ?_).bind fun items' b₁ W₁ hsince ⟨hlength', hitems'⟩ => ?_
  · refine makes_convert ((hitems x hx).since hsince) fun h => ⟨?_, Ty.regular_elementTy _⟩
    exact hkind ▸ Ty.convertsTo_scalar (List.forall_mem_map.mp hscalars x hx) kind
  · refine (makes_pack (fun x hx => (hitems' x hx).1) fun _ => ⟨hregular, harray, ?_, fun x hx => (hitems' x hx).2⟩).weaken
      fun o b' W' _ ho => ho.1
    rw [hlength', ← hlength, List.length_map]

/-- The code of the position of a matrix entry. -/
theorem makes_entryIndex {size : UInt8} {i j : Operand} (hi : ReadyAs σ .int32 i b W) (hj : ReadyAs σ .int32 j b W) :
    Makes σ W b (entryIndex size i j) (ReadyAs σ .int32) := by
  have harith {op : BinaryOp} (hop : op.opClass = .arithmetic) (u v : Value) (hu : u.HasType .int32)
      (hv : v.HasType .int32) : (Value.binary op u v).HasType .int32 :=
    hu.binary_arith (.inl hop) hv ⟨.int32, rfl, nofun⟩
  have hsize : Makes σ W b (int (Int32.ofInt size.toNat)) (ReadyAs σ .int32) :=
    makes_constant fun _ => ⟨.scalar rfl, trivial⟩
  refine hsize.bind fun s b₁ W₁ hsince hs => ?_
  refine (makes_binary ⟨hi.1.since hsince, hi.2⟩ hs fun _ => ⟨harith rfl, trivial⟩).bind fun row b₂ W₂ hsince' hrow => ?_
  exact makes_binary hrow ⟨hj.1.since (hsince.trans hsince'), hj.2⟩ fun _ => ⟨harith rfl, trivial⟩

/-- The code that loads a place. -/
theorem makes_load {p : Place} (hp : p.Ready σ b W) : Makes σ W b (load p) (ReadyAs σ p.ty) := by
  cases p with
  | register o => exact .pure ⟨hp, rfl⟩
  | slot s ty => exact makes_readSlot hp.1 hp.2
  | component base container index => exact makes_extract hp.2.1.1 hp.2.2

/-- The code that stores an operand in a place of its type. -/
theorem makes_store {p : Place} (hp : p.Ready σ b W) (ho : ReadyAs σ p.ty o b W) :
    Makes σ W b (store p o) fun _ _ _ => True := by
  induction p generalizing b W o with
  | register x => exact (makes_assign (Operand.Ready.type hp) ho).weaken fun _ _ _ _ _ => trivial
  | slot s ty => exact makes_writeSlot hp.1 ho
  | component base container index ih =>
    obtain ⟨hbase, hcontainer, hindex⟩ := hp
    have hinsert := makes_insert hcontainer.1 hindex ho
    cases base with
    | register x =>
      refine hinsert.bind fun _ b₁ W₁ hsince _ => ?_
      split
      · exact .pure trivial
      · exact ih (hbase.since hsince) ⟨hcontainer.1.since hsince, hcontainer.2⟩
    | slot s ty | component base' container' index' =>
      exact hinsert.bind fun _ b₁ W₁ hsince _ => ih (hbase.since hsince) ⟨hcontainer.1.since hsince, hcontainer.2⟩

/-- A number converted to a scalar type. -/
theorem makes_constantAs {n : Int32} {ty : Ty} (hscalar : ty.isScalar = true) :
    Makes σ W b (constantAs (.int32 n) ty) (ReadyAs σ ty) := by
  obtain ⟨kind, rfl⟩ : ∃ kind, ty = .scalar kind := by
    cases ty <;> first | exact ⟨_, rfl⟩ | cases hscalar
  have htype : ((Value.int32 n).convert (.scalar kind)).HasType (.scalar kind) := by
    have hint : (Value.int32 n).HasType .int32 := .scalar rfl
    obtain ⟨w, hw, htype⟩ := hint.convert? trivial (Ty.convertsTo_scalar rfl kind)
    rw [Value.convert, hw]
    exact htype
  have hty := htype.ty_eq trivial
  have hmakes : Makes σ W b (constantAs (.int32 n) (.scalar kind)) (ReadyAs σ _) :=
    makes_constant fun _ => hty.symm ▸ ⟨htype, trivial⟩
  rwa [hty] at hmakes

/-- The code that steps a place. -/
theorem makes_step {op : CrementOp} {post : Bool} {p : Place} (hp : p.Ready σ b W) (hscalar : p.ty.isScalar = true)
    (hbool : p.ty ≠ .bool) : Makes σ W b (step op post p) fun o b' W' => o.Ready σ b' W' := by
  have hnumeric : p.ty.isNumeric = true := by
    cases hty : p.ty <;> first | rfl | simp [hty, Ty.isScalar] at hscalar
  have hop (h : σ.typed) (u v : Value) (hu : u.HasType p.ty) (hv : v.HasType p.ty) :
      (Value.binary op.binary u v).HasType p.ty :=
    hu.binary_arith (by cases op <;> exact .inl rfl) hv ((hp.regular h).computes hnumeric hbool)
  have hrest {current : Operand} {old : Option Operand} {b₁ : Builder} {W₁ : Set Reg} (hsince₁ : b.Since W b₁ W₁)
      (hcurrent : ReadyAs σ p.ty current b₁ W₁) (hold : ∀ o ∈ old, o.Ready σ b₁ W₁) :
      Makes σ W₁ b₁ (do
        let one ← constantAs (.int32 1) p.ty
        let new ← Builder.binary op.binary current one p.ty
        store p new
        return old.getD new) fun o b' W' => o.Ready σ b' W' := by
    refine (makes_constantAs hscalar).bind fun one b₂ W₂ hsince₂ hone => ?_
    refine (makes_binary (hcurrent.since hsince₂) hone fun h => ⟨hop h, hp.regular h⟩).bind
      fun new b₃ W₃ hsince₃ hnew => ?_
    refine (makes_store (hp.since (hsince₁.trans (hsince₂.trans hsince₃))) hnew).bind
      fun _ b₄ W₄ hsince₄ _ => .pure ?_
    cases old with
    | none => exact hnew.1.since hsince₄
    | some old => exact (hold old rfl).since (hsince₂.trans (hsince₃.trans hsince₄))
  refine (makes_load hp).bind fun current b₁ W₁ hsince₁ hcurrent => ?_
  split
  · refine (makes_alloc p.ty).bind ?_
    rintro old b₂ W₂ hsince₂ ⟨htype, hty⟩
    refine (makes_assign htype (hcurrent.since hsince₂)).bind fun _ b₃ W₃ hsince₃ hwritten => ?_
    refine hrest (hsince₁.trans (hsince₂.trans hsince₃)) (hcurrent.since (hsince₂.trans hsince₃)) ?_
    rintro _ ⟨⟩
    exact ⟨hty ▸ hsince₃.types _ _ htype, hwritten, fun h => hty ▸ hp.regular h⟩
  · exact hrest hsince₁ hcurrent (by simp)

end Generate

end Elementwise
