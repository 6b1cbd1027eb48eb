import Elementwise.Function.Standard
import Elementwise.Proofs.Function.Emitted
import Elementwise.Proofs.Table

/-!
# The standard library is sound

What a call relies on: a group resolves to one of its overloads, whose parameters the arguments convert
to; a native body of an overload respects its signature, and an inline one builds sound code. All
overloads of the standard library are like that.
-/

namespace Elementwise

open Builder

/-- What runs a function keeps to its signature. -/
def Implementation.Sound (σ : Regime) (params : List Ty) (ret : Ty) : Implementation → Prop
  | .native body => σ.typed → body.Respects params ret
  | .emitted generator => ∀ custom args b W, (∀ a ∈ args, a.Ready σ b W) → args.map Operand.ty = params →
      MakesPart σ W b (generator custom args) fun o b' W' => o.Ready σ b' W'

/-- A function with a fixed number of parameters that keeps to its signature; an inline one has a value. -/
structure Function.Sound (σ : Regime) (f : Function) : Prop where
  fixed : f.signature.variadic = false
  params : ∀ p ∈ f.signature.params, p.Regular
  ret : f.signature.ret.Regular
  value : ∀ generator, f.implementation = .emitted generator → f.signature.ret ≠ .void
  implementation : f.implementation.Sound σ f.signature.params f.signature.ret

/-- A call resolves to an overload that its arguments fit. -/
theorem Group.resolve_eq_ok {g : Group} {args : List Ty} {r : Resolution} (h : g.resolve args = .ok r) :
    r.function ∈ g.functions ∧ ∃ tier, r.function.signature.fits tier args = true := by
  have hfit {tier : MatchTier} {r : Resolution} (hr : g.firstFit? tier args = some r) :
      r.function ∈ g.functions ∧ r.function.signature.fits tier args = true := by
    obtain ⟨⟨f, i⟩, hfind, rfl⟩ := Option.map_eq_some_iff.mp hr
    have hfits := List.find?_some hfind
    exact ⟨List.fst_mem_of_mem_zipIdx (List.mem_of_find?_eq_some hfind), hfits⟩
  unfold Group.resolve at h
  split at h
  · next r' hr' =>
    obtain rfl := Except.ok.inj h
    exact ⟨(hfit hr').1, _, (hfit hr').2⟩
  · split at h
    · next r' hr' =>
      obtain rfl := Except.ok.inj h
      exact ⟨(hfit hr').1, _, (hfit hr').2⟩
    · cases h

/-- An argument that a parameter accepts converts to it. -/
theorem Ty.convertsTo_of_convertsToParameter {a p : Ty} {readonly : Bool} (h : a.convertsToParameter p readonly = true) :
    a.convertsTo p = true := by
  unfold convertsToParameter at h
  rw [Bool.or_eq_true] at h
  rcases h with h | h
  · rw [beq_iff_eq.mp h]
    exact convertsTo_refl p
  · split at h
    · exact (Bool.and_eq_true_iff.mp h).2
    · exact (Bool.and_eq_true_iff.mp h).2
    · exact h

namespace Generate

variable {σ : Regime} {b : Builder} {W : Set Reg}

/-- The arguments of a call, converted to the parameters of an overload that they fit. -/
theorem makes_convertArguments {s : Signature} (hfixed : s.variadic = false) (hparams : ∀ p ∈ s.params, p.Regular)
    {i : Nat} {values : List Operand} (hvalues : ∀ v ∈ values, v.Ready σ b W) (tier : MatchTier)
    (hcount : i + values.length = s.params.length)
    (haccepts : ∀ j v, values[j]? = some v → s.accepts tier (i + j) v.ty = true) :
    Makes σ W b (convertArguments s i values) fun args b' W' =>
      (∀ a ∈ args, a.Ready σ b' W') ∧ args.map Operand.ty = s.params.drop i := by
  induction values generalizing i b W with
  | nil => exact .pure ⟨by simp, by simpa using Nat.le_of_eq hcount.symm⟩
  | cons v rest ih =>
    have hi : i < s.params.length := by simp at hcount; omega
    have hparam : s.param? i = some (s.params[i], s.readonly[i]?.getD false) := by
      simp [Signature.param?, hfixed, hi]
    rw [List.forall_mem_cons] at hvalues
    have hconverts : v.ty.convertsTo s.params[i] = true := by
      have haccept := haccepts 0 v rfl
      simp only [Nat.add_zero, Signature.accepts, hparam] at haccept
      split at haccept
      · rw [beq_iff_eq.mp haccept]
        exact Ty.convertsTo_refl _
      · exact Ty.convertsTo_of_convertsToParameter haccept
    rw [convertArguments, hparam]
    refine (makes_convert hvalues.1 fun _ => ⟨hconverts, hparams _ (List.getElem_mem hi)⟩).bind
      fun a b₁ W₁ hsince ha => ?_
    refine (ih (fun v hv => (hvalues.2 v hv).since hsince) (i := i + 1) (by simp at hcount ⊢; omega) fun j v hv => ?_).bind ?_
    · have := haccepts (j + 1) v hv
      rwa [show i + (j + 1) = i + 1 + j by omega] at this
    · rintro args b₂ W₂ hsince₂ ⟨hargs, htypes⟩
      refine .pure ⟨List.forall_mem_cons.mpr ⟨ha.1.since hsince₂, hargs⟩, ?_⟩
      rw [List.map_cons, htypes, ha.2, List.drop_eq_getElem_cons hi]

/-- The arguments of a call, converted to the parameters of the overload that the call takes. -/
theorem makes_resolved {g : Group} {r : Resolution} {values : List Operand}
    (hresolve : g.resolve (values.map Operand.ty) = .ok r) (hsound : r.function.Sound σ)
    (hvalues : ∀ v ∈ values, v.Ready σ b W) :
    Makes σ W b (convertArguments r.function.signature 0 values) fun args b' W' =>
      (∀ a ∈ args, a.Ready σ b' W') ∧ args.map Operand.ty = r.function.signature.params := by
  obtain ⟨-, tier, hfits⟩ := Group.resolve_eq_ok hresolve
  obtain ⟨hcount, haccepts⟩ := Bool.and_eq_true_iff.mp hfits
  have hmakes := makes_convertArguments hsound.fixed hsound.params (i := 0) hvalues tier ?_ fun j v hv => ?_
  · simpa using hmakes
  · simpa [Signature.acceptsCount, hsound.fixed] using hcount
  · rw [List.all_eq_true] at haccepts
    rw [Nat.zero_add]
    refine haccepts (v.ty, j) (List.mem_zipIdx_iff_getElem?.mpr ?_)
    simp [hv]

end Generate

namespace Library

variable {σ : Regime}

variable {doc name : String} {g : Group} {generator : Generator} {ty : Ty}

/-- A group of native overloads is sound if its body respects each of them. -/
theorem nativeGroup_sound {types : List Ty} {arity : Nat} {ret : Ty → Ty} {body : NativeBody}
    (hregular : ∀ ty ∈ types, ty.Regular ∧ (ret ty).Regular)
    (hbody : ∀ ty ∈ types, body.Respects (List.replicate arity ty) (ret ty)) :
    ∀ f ∈ (nativeGroup name doc types arity ret body).functions, f.Sound σ := by
  intro f hf
  obtain ⟨ty, hty, rfl⟩ := List.mem_map.mp hf
  refine ⟨rfl, fun p hp => ?_, (hregular ty hty).2, nofun, fun _ => hbody ty hty⟩
  exact List.eq_of_mem_replicate hp ▸ (hregular ty hty).1

/-- A group of inline overloads is sound if its generator is for each of them. -/
theorem inlineGroup_sound {types : List Ty} {arity : Nat} {ret : Ty → Ty}
    (hregular : ∀ ty ∈ types, ty.Regular ∧ (ret ty).Regular ∧ ret ty ≠ .void)
    (hgenerator : ∀ ty ∈ types, (Implementation.emitted generator).Sound σ (List.replicate arity ty) (ret ty)) :
    ∀ f ∈ (inlineGroup name doc types arity ret generator).functions, f.Sound σ := by
  intro f hf
  obtain ⟨ty, hty, rfl⟩ := List.mem_map.mp hf
  refine ⟨rfl, fun p hp => ?_, (hregular ty hty).2.1, fun _ _ => (hregular ty hty).2.2, hgenerator ty hty⟩
  exact List.eq_of_mem_replicate hp ▸ (hregular ty hty).1

/-- A group that provides something of the voxel is sound. -/
theorem voxelGroup_sound {op : Intrinsic} : ∀ f ∈ (voxelGroup name doc op).functions, f.Sound σ := by
  intro f hf
  obtain rfl := List.mem_singleton.mp hf
  refine ⟨rfl, nofun, by cases op <;> decide, fun _ _ => by cases op <;> decide, fun custom args b W _ _ => ?_⟩
  exact .lift ((makes_intrinsic op).weaken fun o b' W' _ ho => ho.1)

/-- A group of functions of one floating number is sound. -/
theorem floating1_sound (f : Float → Float) :
    ∀ g ∈ (nativeGroup name doc floats 1 id (Native.floating1 f)).functions, g.Sound σ :=
  nativeGroup_sound (by decide) fun _ hty => Native.respects_floating1 f hty []

/-- An inline function of one operand. -/
theorem emitted_sound₁ {ret : Ty}
    (h : ∀ custom x b W, x.Ready σ b W → x.ty = ty → ∃ out, MakesPart σ W b (generator custom [x]) (ReadyAs σ out)) :
    (Implementation.emitted generator).Sound σ (List.replicate 1 ty) ret := by
  intro custom args b W hargs htypes
  obtain ⟨x, rfl⟩ := List.length_eq_one_iff.mp (by simpa using congrArg List.length htypes)
  obtain ⟨out, hmakes⟩ := h custom x b W (hargs x (by simp)) (by simpa using htypes)
  exact hmakes.weaken fun o b' W' ho => ho.1

/-- An inline function of two operands. -/
theorem emitted_sound₂ {ret : Ty}
    (h : ∀ custom x y b W, x.Ready σ b W → y.Ready σ b W → x.ty = ty → y.ty = ty →
      ∃ out, MakesPart σ W b (generator custom [x, y]) (ReadyAs σ out)) :
    (Implementation.emitted generator).Sound σ (List.replicate 2 ty) ret := by
  intro custom args b W hargs htypes
  obtain ⟨x, y, rfl⟩ := List.length_eq_two.mp (by simpa using congrArg List.length htypes)
  have htys : x.ty = ty ∧ y.ty = ty := by simpa using htypes
  obtain ⟨out, hmakes⟩ := h custom x y b W (hargs x (by simp)) (hargs y (by simp)) htys.1 htys.2
  exact hmakes.weaken fun o b' W' ho => ho.1

/-- The components of vectors are numbers. -/
theorem computes_of_mem_vectors (hty : ty ∈ vectors) : ty.elementTy.Computes := by
  have hkind : ∀ ty ∈ vectors, ty.element?.isSome ∧ ty.element? ≠ some .bool := by decide
  obtain ⟨kind, hk⟩ := Option.isSome_iff_exists.mp (hkind ty hty).1
  exact ⟨kind, by rw [Ty.elementTy, hk]; rfl, fun h => (hkind ty hty).2 (h ▸ hk)⟩

/-- Every function of the groups of the standard library is sound. -/
theorem standardGroups_sound : ∀ g ∈ standardGroups, ∀ f ∈ g.functions, f.Sound σ := by
  have hfloats : ∀ ty ∈ floatVectors, ty ∈ vectors ∧ ty.elementTy ∈ [Ty.double, .float] := by decide
  have hthree : ∀ ty ∈ vectorsOf 3, ty ∈ vectors ∧ ty.isArray = true ∧ ty.componentCount = 3 := by decide
  have hdot : ∀ ty ∈ vectors, (Implementation.emitted Emitted.dot).Sound σ (List.replicate 2 ty) ty.elementTy :=
    fun ty hty => emitted_sound₂ fun _ _ _ _ _ hx hy hxty hyty =>
      ⟨_, Emitted.makes_dotProduct hx ⟨hy, hyty.trans hxty.symm⟩ (hxty ▸ computes_of_mem_vectors hty)⟩
  have hcross : ∀ ty ∈ vectorsOf 3, (Implementation.emitted Emitted.cross).Sound σ (List.replicate 2 ty) ty := by
    intro ty hty
    obtain ⟨hvector, harray, hcount⟩ := hthree ty hty
    exact emitted_sound₂ fun _ _ _ _ _ hx hy hxty hyty =>
      ⟨_, Emitted.makes_cross hx ⟨hy, hyty.trans hxty.symm⟩ (hxty ▸ computes_of_mem_vectors hvector) (hxty ▸ harray)
        (hxty ▸ hcount)⟩
  have hlength : ∀ ty ∈ floatVectors,
      (Implementation.emitted Emitted.length).Sound σ (List.replicate 1 ty) ty.elementTy :=
    fun ty hty => emitted_sound₁ fun _ _ _ _ hx hxty =>
      ⟨_, Emitted.makes_length hx (hxty ▸ (hfloats ty hty).2)⟩
  have hlengthsq : ∀ ty ∈ floatVectors,
      (Implementation.emitted Emitted.lengthsq).Sound σ (List.replicate 1 ty) ty.elementTy :=
    fun ty hty => emitted_sound₁ fun _ _ _ _ hx hxty =>
      ⟨_, Emitted.makes_dotProduct hx ⟨hx, rfl⟩ (hxty ▸ computes_of_mem_vectors (hfloats ty hty).1)⟩
  have hnormalize : ∀ ty ∈ floatVectors,
      (Implementation.emitted Emitted.normalize).Sound σ (List.replicate 1 ty) ty :=
    fun ty hty => emitted_sound₁ fun _ _ _ _ hx hxty =>
      ⟨_, Emitted.makes_normalize hx (hxty ▸ (hfloats ty hty).2)⟩
  have htranspose : ∀ ty ∈ matrices, (Implementation.emitted Emitted.transpose).Sound σ (List.replicate 1 ty) ty :=
    fun ty _ => emitted_sound₁ fun _ _ _ _ hx _ => ⟨_, Emitted.makes_transpose hx⟩
  unfold standardGroups
  simp only [List.forall_mem_cons]
  exact ⟨nativeGroup_sound (by decide) fun _ h => Native.respects_abs h,
    floating1_sound _, floating1_sound _, floating1_sound _, floating1_sound _, floating1_sound _, floating1_sound _,
    floating1_sound _, floating1_sound _, floating1_sound _,
    nativeGroup_sound (by decide) fun _ h => Native.respects_floating2 _ h _,
    nativeGroup_sound (by decide) fun _ h => Native.respects_choose _ _ h,
    nativeGroup_sound (by decide) fun _ h => Native.respects_choose _ _ h,
    nativeGroup_sound (by decide) fun _ h => Native.respects_clamp h,
    nativeGroup_sound (by decide) fun _ h => Native.respects_floating3 _ h _,
    nativeGroup_sound (by decide) fun _ h => List.mem_singleton.mp h ▸ Native.respects_fit _,
    nativeGroup_sound (by decide) fun _ h => Native.respects_mmmult h,
    nativeGroup_sound (by decide) fun _ _ => Native.respects_print _,
    inlineGroup_sound (by decide) hdot, inlineGroup_sound (by decide) hcross, inlineGroup_sound (by decide) hlength,
    inlineGroup_sound (by decide) hlengthsq, inlineGroup_sound (by decide) hnormalize,
    inlineGroup_sound (by decide) htranspose,
    voxelGroup_sound, voxelGroup_sound, voxelGroup_sound, voxelGroup_sound, nofun⟩

/-- What a library has under a name after groups were added was there before, or is one of them. -/
theorem at?_foldl_add {groups : List Group} {l : Library} {i : Nat} (h : (groups.foldl add l).at? i = some (name, g)) :
    (∃ j, l.at? j = some (name, g)) ∨ (g ∈ groups ∧ name = g.name) := by
  induction groups generalizing l with
  | nil => exact .inl ⟨i, h⟩
  | cons first rest ih =>
    rcases ih h with ⟨j, hj⟩ | ⟨hmem, hname⟩
    · rcases Table.at?_insert hj with hold | ⟨hname, rfl, -⟩
      · exact .inl ⟨j, hold⟩
      · exact .inr ⟨List.mem_cons_self, hname⟩
    · exact .inr ⟨List.mem_cons_of_mem _ hmem, hname⟩

/-- The standard library has its groups under their names. -/
theorem mem_standardGroups (h : standard.get? name = some g) : g ∈ standardGroups ∧ name = g.name := by
  obtain ⟨i, hi⟩ := Table.exists_at?_of_get? h
  rcases at?_foldl_add hi with ⟨j, hj⟩ | hmem
  · simp [Table.at?] at hj
  · exact hmem

theorem standard_sound (h : standard.get? name = some g) : ∀ f ∈ g.functions, f.Sound σ :=
  standardGroups_sound g (mem_standardGroups h).1

end Library

end Elementwise
