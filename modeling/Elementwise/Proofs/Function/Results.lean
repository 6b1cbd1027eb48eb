import Elementwise.Proofs.Function.Standard

/-!
# Results of inline functions

Whatever was built before, an inline function of the standard library has a result when it is applied to
operands of the types of its parameters, and the result has the type that is declared.
-/

namespace Elementwise

/-- A step of building gives what is stated, whatever was built before. -/
def BuildM.Gives {α : Type} (x : BuildM α) (Q : α → Prop) : Prop := ∀ b, Q (x b).1

/-- A step of building has a result as stated, whatever was built before. -/
def BuildM.Finds {α : Type} (x : OptionT BuildM α) (Q : α → Prop) : Prop := x.run.Gives fun r => ∃ a, r = some a ∧ Q a

namespace BuildM

variable {α β : Type} {P : α → Prop} {Q : β → Prop}

theorem Gives.pure {a : α} (h : P a) : Gives (Pure.pure a) P := fun _ => h

theorem Gives.bind {x : BuildM α} {k : α → BuildM β} (hx : Gives x P) (hk : ∀ a, P a → Gives (k a) Q) : Gives (x >>= k) Q :=
  fun b => hk _ (hx b) _

theorem Gives.mapM {f : α → BuildM β} {as : List α} (h : ∀ a ∈ as, Gives (f a) Q) :
    Gives (as.mapM f) fun bs => bs.length = as.length ∧ ∀ b ∈ bs, Q b := by
  induction as with
  | nil => exact .pure ⟨rfl, nofun⟩
  | cons a as ih =>
    rw [List.forall_mem_cons] at h
    rw [List.mapM_cons]
    refine h.1.bind fun b hb => (ih h.2).bind fun bs hbs => .pure ⟨?_, ?_⟩
    · rw [List.length_cons, List.length_cons, hbs.1]
    · exact List.forall_mem_cons.mpr ⟨hb, hbs.2⟩

namespace Finds

theorem lift {x : BuildM α} (h : Gives x P) : Finds (OptionT.lift x) P := fun b => ⟨_, rfl, h b⟩

theorem bind {x : OptionT BuildM α} {k : α → OptionT BuildM β} (hx : Finds x P) (hk : ∀ a, P a → Finds (k a) Q) :
    Finds (x >>= k) Q := by
  unfold Finds
  rw [OptionT.run_bind]
  refine Gives.bind hx ?_
  rintro _ ⟨a, rfl, ha⟩
  exact hk a ha

end Finds

end BuildM

namespace Emitted

open BuildM (Gives Finds)

variable {x y : Operand}

variable {custom : CustomData} {rest : List Operand}

/-- The components of an operand. -/
theorem gives_components (x : Operand) :
    Gives (components x) fun xs => xs.length = x.ty.componentCount ∧ ∀ c ∈ xs, c.ty = x.ty.elementTy := by
  have hextract : ∀ i ∈ List.range x.ty.componentCount,
      Gives (Builder.extractAt x i) fun c => c.ty = x.ty.elementTy := fun _ _ _ => rfl
  have hcomponents := Gives.mapM hextract
  rwa [List.length_range] at hcomponents

/-- The sum has the type of what is summed up. -/
theorem gives_sum (ty : Ty) (ps : List Operand) (hx : x.ty = ty) : Gives (sum ty x ps) fun o => o.ty = ty := by
  induction ps generalizing x with
  | nil => exact .pure hx
  | cons p ps ih => exact Gives.bind (P := fun o => o.ty = ty) (fun _ => rfl) fun total htotal => ih htotal

/-- The dot product of operands with components. -/
theorem finds_dotProduct (hx : x.ty.componentCount ≠ 0) (hy : y.ty.componentCount ≠ 0) :
    Finds (dotProduct x y) fun o => o.ty = x.ty.elementTy := by
  refine (Finds.lift (gives_components x)).bind fun xs hxs => (Finds.lift (gives_components y)).bind fun ys hys => ?_
  have hproducts : Finds ((xs.zip ys).mapM fun p => liftM (Builder.binary .mul p.1 p.2 x.ty.elementTy))
      fun os => os.length = (xs.zip ys).length ∧ ∀ o ∈ os, o.ty = x.ty.elementTy := by
    rw [mapM_lift]
    exact .lift (.mapM fun _ _ _ => rfl)
  refine hproducts.bind fun products hproducts => ?_
  cases products with
  | nil =>
    have hlength := hproducts.1
    rw [List.length_zip, hxs.1, hys.1, List.length_nil] at hlength
    omega
  | cons first rest => exact .lift (gives_sum _ rest (hproducts.2 first List.mem_cons_self))

/-- The length of an operand with components. -/
theorem finds_length (hx : x.ty.componentCount ≠ 0) :
    Finds (length custom (x :: rest)) fun o => o.ty = x.ty.elementTy :=
  (finds_dotProduct hx hx).bind fun _ hsquare => .lift fun _ => hsquare

/-- The cross product of operands of three components. -/
theorem finds_cross (hx : x.ty.componentCount = 3) (hy : y.ty.componentCount = 3) :
    Finds (cross custom (x :: y :: rest)) fun o => o.ty = x.ty := by
  refine (Finds.lift (gives_components x)).bind fun xs hxs => (Finds.lift (gives_components y)).bind fun ys hys => ?_
  obtain ⟨x0, x1, x2, rfl⟩ := List.length_eq_three.mp (hxs.1.trans hx)
  obtain ⟨y0, y1, y2, rfl⟩ := List.length_eq_three.mp (hys.1.trans hy)
  exact fun _ => ⟨_, rfl, rfl⟩

/-- The vector of length one. -/
theorem finds_normalize (hx : x.ty.componentCount ≠ 0) : Finds (normalize custom (x :: rest)) fun o => o.ty = x.ty :=
  (finds_length hx).bind fun _ _ _ => ⟨_, rfl, rfl⟩

/-- The transposed matrix. -/
theorem finds_transpose {kind : ScalarKind} {n : UInt8} (hx : x.ty = .matrix kind n) :
    Finds (transpose custom (x :: rest)) fun o => o.ty = x.ty := by
  unfold transpose
  dsimp only
  rw [hx]
  exact fun _ => ⟨_, rfl, rfl⟩

end Emitted

open BuildM (Finds)

/-- An inline function has a result of the declared type on operands of the types of its parameters. -/
def Function.HasResult (f : Function) : Prop :=
  ∀ generator, f.implementation = .emitted generator → ∀ custom args, args.map Operand.ty = f.signature.params →
    Finds (generator custom args) fun o => o.ty = f.signature.ret

namespace Library

variable {doc name : String} {ret : Ty → Ty} {types : List Ty}

/-- A group of native overloads has no inline function. -/
theorem nativeGroup_hasResult {arity : Nat} {body : NativeBody} :
    ∀ f ∈ (nativeGroup name doc types arity ret body).functions, f.HasResult := by
  intro f hf
  obtain ⟨ty, -, rfl⟩ := List.mem_map.mp hf
  nofun

/-- A group of inline overloads of one operand. -/
theorem inlineGroup_hasResult₁ {generator : Generator}
    (h : ∀ ty ∈ types, ∀ custom x, x.ty = ty → Finds (generator custom [x]) fun o => o.ty = ret ty) :
    ∀ f ∈ (inlineGroup name doc types 1 ret generator).functions, f.HasResult := by
  intro f hf
  obtain ⟨ty, hty, rfl⟩ := List.mem_map.mp hf
  rintro _ ⟨⟩ custom args hargs
  change args.map Operand.ty = [ty] at hargs
  obtain ⟨x, rfl⟩ := List.length_eq_one_iff.mp (by simpa using congrArg List.length hargs)
  exact h ty hty custom x (by simpa using hargs)

/-- A group of inline overloads of two operands. -/
theorem inlineGroup_hasResult₂ {generator : Generator}
    (h : ∀ ty ∈ types, ∀ custom x y, x.ty = ty → y.ty = ty → Finds (generator custom [x, y]) fun o => o.ty = ret ty) :
    ∀ f ∈ (inlineGroup name doc types 2 ret generator).functions, f.HasResult := by
  intro f hf
  obtain ⟨ty, hty, rfl⟩ := List.mem_map.mp hf
  rintro _ ⟨⟩ custom args hargs
  change args.map Operand.ty = [ty, ty] at hargs
  obtain ⟨x, y, rfl⟩ := List.length_eq_two.mp (by simpa using congrArg List.length hargs)
  have htys : x.ty = ty ∧ y.ty = ty := by simpa using hargs
  exact h ty hty custom x y htys.1 htys.2

/-- A group that provides something of the voxel has its value. -/
theorem voxelGroup_hasResult {op : Intrinsic} : ∀ f ∈ (voxelGroup name doc op).functions, f.HasResult := by
  intro f hf
  obtain rfl := List.mem_singleton.mp hf
  rintro _ ⟨⟩ custom args -
  exact .lift fun _ => rfl

/-- Every inline function of the groups of the standard library has a result. -/
theorem standardGroups_hasResult : ∀ g ∈ standardGroups, ∀ f ∈ g.functions, f.HasResult := by
  have hvectors : ∀ ty ∈ vectors, ty.componentCount ≠ 0 := by decide
  have hfloats : ∀ ty ∈ floatVectors, ty.componentCount ≠ 0 := by decide
  have hthree : ∀ ty ∈ vectorsOf 3, ty.componentCount = 3 := by decide
  have hmatrices : ∀ ty ∈ matrices, ∃ kind n, ty = .matrix kind n := by
    simp [matrices]
  unfold standardGroups
  simp only [List.forall_mem_cons]
  repeat refine ⟨nativeGroup_hasResult, ?_⟩
  refine ⟨inlineGroup_hasResult₂ ?dot, inlineGroup_hasResult₂ ?cross, inlineGroup_hasResult₁ ?length,
    inlineGroup_hasResult₁ ?lengthsq, inlineGroup_hasResult₁ ?normalize, inlineGroup_hasResult₁ ?transpose,
    voxelGroup_hasResult, voxelGroup_hasResult, voxelGroup_hasResult, voxelGroup_hasResult, nofun⟩
  case dot =>
    rintro ty hty custom x y rfl hy
    exact Emitted.finds_dotProduct (hvectors _ hty) (hy ▸ hvectors _ hty)
  case cross =>
    rintro ty hty custom x y rfl hy
    exact Emitted.finds_cross (hthree _ hty) (hy ▸ hthree _ hty)
  case length =>
    rintro ty hty custom x rfl
    exact Emitted.finds_length (hfloats _ hty)
  case lengthsq =>
    rintro ty hty custom x rfl
    exact Emitted.finds_dotProduct (hfloats _ hty) (hfloats _ hty)
  case normalize =>
    rintro ty hty custom x rfl
    exact Emitted.finds_normalize (hfloats _ hty)
  case transpose =>
    rintro ty hty custom x rfl
    obtain ⟨kind, n, hx⟩ := hmatrices _ hty
    exact Emitted.finds_transpose hx

/-- Every inline function that the standard library has under a name has a result. -/
theorem standard_hasResult {g : Group} (h : standard.get? name = some g) : ∀ f ∈ g.functions, f.HasResult :=
  standardGroups_hasResult g (mem_standardGroups h).1

end Library

end Elementwise
