import Elementwise.Proofs.Function.Standard
import Elementwise.Proofs.Number.Order

/-!
# Native functions have answers

Every native function of the standard library answers all arguments of its parameter types, floating
numbers of any kind among them, with a value of its result type. There is one exception: `fit` limits its
first argument to a range, and no number is limited to a range with a bound that is not a number.
-/

namespace Elementwise

/-- A native body answers all arguments of some types with a value of a type. The types are those that the
arguments themselves tell, by the first component of an array. -/
def NativeBody.Answers (body : NativeBody) (params : List Ty) (ret : Ty) : Prop :=
  ∀ vs : List Value, vs.map Value.ty = params → ∃ result, body vs = some result ∧ result.value.HasType ret

/-- Values that tell the types of scalars are such scalars. -/
theorem Value.forall₂_hasType_of_ty {vs : List Value} {tys : List Ty} (h : vs.map Value.ty = tys)
    (htys : ∀ ty ∈ tys, ty.isScalar = true) : List.Forall₂ HasType vs tys := by
  subst h
  rw [List.forall_mem_map] at htys
  rw [List.forall₂_map_right_iff, List.forall₂_same]
  intro v hv
  have hscalar := htys v hv
  cases v with
  | scalar s => exact .scalar rfl
  | _ => cases hscalar

namespace Native

/-- A body that respects types answers scalars if it has any answer for as many arguments. -/
theorem answers_of_respects {body : NativeBody} {n : Nat} {ty ret : Ty} (hty : ty.isScalar = true)
    (hrespects : body.Respects (List.replicate n ty) ret)
    (hsome : ∀ vs : List Value, vs.length = n → (body vs).isSome = true) :
    body.Answers (List.replicate n ty) ret := by
  intro vs hvs
  have hlength : vs.length = n := by simpa using congrArg List.length hvs
  have hscalars : ∀ p ∈ List.replicate n ty, p.isScalar = true := fun p hp => List.eq_of_mem_replicate hp ▸ hty
  obtain ⟨result, hresult⟩ := Option.isSome_iff_exists.mp (hsome vs hlength)
  exact ⟨result, hresult, hrespects vs result (Value.forall₂_hasType_of_ty hvs hscalars) hresult⟩

/-- A function of floating numbers has an answer if it has one for the numbers. -/
theorem isSome_floating {f : List Float → Option Float} {vs : List Value}
    (h : (f (vs.map Value.toFloat)).isSome = true) : (floating f vs).isSome = true := by
  simpa [floating, silent] using h

/-- A function of one floating number has an answer for one argument. -/
theorem isSome_floating1 (f : Float → Float) (vs : List Value) (h : vs.length = 1) : (floating1 f vs).isSome = true := by
  obtain ⟨a, rfl⟩ := List.length_eq_one_iff.mp h
  exact isSome_floating rfl

/-- A function of two floating numbers has an answer for two arguments. -/
theorem isSome_floating2 (f : Float → Float → Float) (vs : List Value) (h : vs.length = 2) :
    (floating2 f vs).isSome = true := by
  obtain ⟨a, b, rfl⟩ := List.length_eq_two.mp h
  exact isSome_floating rfl

/-- A function of three floating numbers has an answer for three arguments. -/
theorem isSome_floating3 (f : Float → Float → Float → Float) (vs : List Value) (h : vs.length = 3) :
    (floating3 f vs).isSome = true := by
  obtain ⟨a, b, c, rfl⟩ := List.length_eq_three.mp h
  exact isSome_floating rfl

/-- Choosing one of two values. -/
theorem isSome_choose (ofInts : Int32 → Int32 → Int32) (ofFloats : Float → Float → Float) (vs : List Value)
    (h : vs.length = 2) : (choose ofInts ofFloats vs).isSome = true := by
  unfold choose
  split
  · rfl
  · exact isSome_floating2 _ vs h

/-- Limiting a value: bounds that cross, or are not numbers, do not matter. -/
theorem isSome_clamp (vs : List Value) (h : vs.length = 3) : (clamp vs).isSome = true := by
  unfold clamp
  split
  · rfl
  · exact isSome_floating3 _ vs h

/-- The absolute value. -/
theorem isSome_abs (vs : List Value) : (abs vs).isSome = true := by
  rw [abs, silent, Option.isSome_map]
  split <;> rfl

theorem answers_print (params : List Ty) : print.Answers params .void := fun _ _ => ⟨_, rfl, .void⟩

/-- A bound of the range that values are mapped from, the second or third argument, is not a number. -/
def BoundMissing (vs : List Value) : Prop := (argument vs 1).isNaN = true ∨ (argument vs 2).isNaN = true

instance (vs : List Value) : Decidable (BoundMissing vs) :=
  inferInstanceAs (Decidable ((argument vs 1).isNaN = true ∨ (argument vs 2).isNaN = true))

/-- A number is mapped from one range to another unless a bound of the first is not a number. -/
theorem fitRange_isSome_iff {x lo hi newMin newMax : Float} :
    (fitRange x lo hi newMin newMax).isSome = true ↔ ¬(lo.isNaN = true ∨ hi.isNaN = true) := by
  by_cases hnan : lo.isNaN = true ∨ hi.isNaN = true
  · obtain ⟨hne, -, hlt, hle⟩ := Number.not_compares hnan
    refine iff_of_false ?_ (not_not_intro hnan)
    simp [fitRange, hne, hlt, Number.clamp?_isSome_iff, hle]
  · refine iff_of_true ?_ hnan
    obtain ⟨hlo, hhi⟩ : lo.isNaN = false ∧ hi.isNaN = false := by simpa using hnan
    unfold fitRange
    split
    · rfl
    · -- the range was turned the right way
      by_cases hlt : hi < lo
      · have hle : hi ≤ lo := Number.le_iff.mpr (.inl (Number.lt_iff.mp hlt))
        simp [hlt, Number.clamp?_isSome_iff, hle]
      · have hle : lo ≤ hi := Number.le_of_not_lt hlo hhi hlt
        simp [hlt, Number.clamp?_isSome_iff, hle]

/-- Mapping a value to another range has an answer unless a bound of the old range is missing. -/
theorem isSome_fit_iff {vs : List Value} : (fit vs).isSome = true ↔ ¬BoundMissing vs := by
  rw [fit, silent, Option.isSome_map, Option.isSome_map]
  exact fitRange_isSome_iff

/-- The matrix product, of any arrays that count as matrices. -/
theorem answers_mmmult {ty : Ty} (hty : ty ∈ Library.matrices) : mmmult.Answers (List.replicate 2 ty) ty := by
  obtain ⟨kind, n, rfl, hkind⟩ : ∃ kind n, ty = .matrix kind n ∧ (kind = .float ∨ kind = .double) := by
    simp only [Library.matrices, List.mem_cons, List.not_mem_nil, or_false] at hty
    rcases hty with rfl | rfl | rfl | rfl <;> simp
  intro vs hvs
  obtain ⟨a, b, rfl⟩ := List.length_eq_two.mp (by simpa using congrArg List.length hvs)
  have ha : a.ty = .matrix kind n := (List.cons.inj hvs).1
  cases a with
  | matrix items => exact ⟨_, rfl, hasType_matrixProduct ha hkind⟩
  | _ => cases ha

end Native

/-- What runs a function natively answers all arguments of its parameter types. -/
def Function.Answers (f : Function) : Prop :=
  ∀ body, f.implementation = .native body → body.Answers f.signature.params f.signature.ret

namespace Library

variable {arity : Nat} {doc name : String} {ret : Ty → Ty} {types : List Ty}

/-- A group of native overloads has answers if its body does for each of them. -/
theorem nativeGroup_answers {body : NativeBody} (h : ∀ ty ∈ types, body.Answers (List.replicate arity ty) (ret ty)) :
    ∀ f ∈ (nativeGroup name doc types arity ret body).functions, f.Answers := by
  intro f hf body' hbody
  obtain ⟨ty, hty, rfl⟩ := List.mem_map.mp hf
  obtain rfl := Implementation.native.inj hbody
  exact h ty hty

/-- A group of native overloads for scalars has answers if its body respects types and has any answer. -/
theorem nativeGroup_answers_of_respects {body : NativeBody} (hscalar : ∀ ty ∈ types, ty.isScalar = true)
    (hrespects : ∀ ty ∈ types, body.Respects (List.replicate arity ty) (ret ty))
    (hsome : ∀ vs : List Value, vs.length = arity → (body vs).isSome = true) :
    ∀ f ∈ (nativeGroup name doc types arity ret body).functions, f.Answers :=
  nativeGroup_answers fun ty hty => Native.answers_of_respects (hscalar ty hty) (hrespects ty hty) hsome

/-- A group of functions of one floating number has answers. -/
theorem floating1_answers (f : Float → Float) :
    ∀ g ∈ (nativeGroup name doc floats 1 id (Native.floating1 f)).functions, g.Answers :=
  nativeGroup_answers_of_respects (by decide) (fun _ hty => Native.respects_floating1 f hty [])
    (Native.isSome_floating1 f)

/-- Only native functions can lack answers. -/
theorem inlineGroup_answers {generator : Generator} :
    ∀ f ∈ (inlineGroup name doc types arity ret generator).functions, f.Answers := by
  intro f hf body hbody
  obtain ⟨ty, -, rfl⟩ := List.mem_map.mp hf
  cases hbody

/-- What a voxel provides is not native. -/
theorem voxelGroup_answers {op : Intrinsic} : ∀ f ∈ (voxelGroup name doc op).functions, f.Answers := by
  intro f hf body hbody
  obtain rfl := List.mem_singleton.mp hf
  cases hbody

/-- All functions of the standard library but `fit` have answers. -/
theorem standardGroups_answers : ∀ g ∈ standardGroups, g.name ≠ "fit" → ∀ f ∈ g.functions, f.Answers := by
  unfold standardGroups
  simp only [List.forall_mem_cons]
  exact ⟨fun _ => nativeGroup_answers_of_respects (by decide) (fun _ h => Native.respects_abs h) fun vs _ => Native.isSome_abs vs,
    fun _ => floating1_answers _, fun _ => floating1_answers _, fun _ => floating1_answers _, fun _ => floating1_answers _,
    fun _ => floating1_answers _, fun _ => floating1_answers _, fun _ => floating1_answers _, fun _ => floating1_answers _,
    fun _ => floating1_answers _,
    fun _ => nativeGroup_answers_of_respects (by decide) (fun _ h => Native.respects_floating2 _ h _) (Native.isSome_floating2 _),
    fun _ => nativeGroup_answers_of_respects (by decide) (fun _ h => Native.respects_choose _ _ h) (Native.isSome_choose _ _),
    fun _ => nativeGroup_answers_of_respects (by decide) (fun _ h => Native.respects_choose _ _ h) (Native.isSome_choose _ _),
    fun _ => nativeGroup_answers_of_respects (by decide) (fun _ h => Native.respects_clamp h) Native.isSome_clamp,
    fun _ => nativeGroup_answers_of_respects (by decide) (fun _ h => Native.respects_floating3 _ h _) (Native.isSome_floating3 _),
    fun hfit => absurd rfl hfit,
    fun _ => nativeGroup_answers fun _ h => Native.answers_mmmult h,
    fun _ => nativeGroup_answers fun _ _ => Native.answers_print _,
    fun _ => inlineGroup_answers, fun _ => inlineGroup_answers, fun _ => inlineGroup_answers,
    fun _ => inlineGroup_answers, fun _ => inlineGroup_answers, fun _ => inlineGroup_answers,
    fun _ => voxelGroup_answers, fun _ => voxelGroup_answers, fun _ => voxelGroup_answers, fun _ => voxelGroup_answers, by simp⟩

theorem get?_fit : standard.get? "fit" = some (nativeGroup "fit"
    "Remap a value from one range to another, clamping to the source range." [.double] 5 id Native.fit) := rfl

/-- Every native overload of the standard library answers all arguments of its
parameter types, whatever floating numbers they are made of, with a value of its result type, unless it is `fit` and a
bound of the range to map from is not a number: then it fails. -/
theorem native_answers {name : String} {g : Group} {f : Function} {body : NativeBody}
    (hg : standard.get? name = some g) (hf : f ∈ g.functions) (hbody : f.implementation = .native body)
    {vs : List Value} (hvs : vs.map Value.ty = f.signature.params) :
    (¬(name = "fit" ∧ Native.BoundMissing vs) → ∃ result, body vs = some result ∧ result.value.HasType f.signature.ret) ∧
      (name = "fit" ∧ Native.BoundMissing vs → body vs = none) := by
  by_cases hname : name = "fit"
  · subst hname
    obtain rfl := Option.some.inj (hg.symm.trans get?_fit)
    obtain rfl := List.mem_singleton.mp hf
    obtain rfl := Implementation.native.inj hbody
    refine ⟨fun hbounds => ?_, fun hbounds => ?_⟩
    · obtain ⟨result, hresult⟩ := Option.isSome_iff_exists.mp (Native.isSome_fit_iff.mpr fun h => hbounds ⟨rfl, h⟩)
      have htypes := Value.forall₂_hasType_of_ty hvs (by decide)
      exact ⟨result, hresult, Native.respects_fit _ vs result htypes hresult⟩
    · rw [← Option.not_isSome_iff_eq_none, Native.isSome_fit_iff]
      exact not_not_intro hbounds.2
  · have hanswers := standardGroups_answers g (mem_standardGroups hg).1 ((mem_standardGroups hg).2 ▸ hname) f hf
    exact ⟨fun _ => hanswers body hbody vs hvs, fun hfit => absurd hfit.1 hname⟩

/-- Something that is not a number is mapped from the range of all numbers. -/
theorem native_answers_infinite_range :
    let vs : List Value := [.double (.ofBits 0x7ff8000000000000), .double (.ofBits 0xfff0000000000000),
      .double (.ofBits 0x7ff0000000000000), .double 0, .double 1]
    (vs.map Value.ty = List.replicate 5 .double ∧ ¬Native.BoundMissing vs) ∧
      ∃ result, Native.fit vs = some result ∧ result.value.HasType .double := by
  intro vs
  have hbounds : ¬Native.BoundMissing vs := by decide +kernel
  have htypes : vs.map Value.ty = List.replicate 5 .double := rfl
  have hanswers := native_answers get?_fit (List.mem_singleton.mpr rfl) rfl htypes
  exact ⟨⟨htypes, hbounds⟩, hanswers.1 fun h => hbounds h.2⟩

/-- One half is not mapped from a range that starts at something that is not a number: arguments of the parameter types
of a native overload without an answer. -/
theorem native_answers_not_from_nan : ∃ g f body, ∃ vs : List Value,
    standard.get? "fit" = some g ∧ f ∈ g.functions ∧ f.implementation = .native body ∧
      vs.map Value.ty = f.signature.params ∧ body vs = none := by
  refine ⟨_, _, _, [.double (.ofBits 0x3fe0000000000000), .double (.ofBits 0x7ff8000000000000), .double 1, .double 0, .double 1],
    get?_fit, List.mem_singleton.mpr rfl, rfl, rfl, ?_⟩
  decide +kernel

end Library

end Elementwise
