import Elementwise.Code.Builder
import Elementwise.Proofs.Code.Sound

/-!
# Building sound code

What a step of building adds to a builder: instructions at the end of the open block, and registers.
`Yields` says that the added code is sound from registers that are known to be written, and `Makes`
says it of a step of building, with what holds of its result. Every step of the builder has one lemma.
-/

namespace Elementwise

namespace Builder

/-- A builder that has some more code in its open block, and maybe more registers. -/
structure Adds (b : Builder) (code : List Instr) (b' : Builder) : Prop where
  current : b'.current.toList = b.current.toList ++ code
  enclosing : b'.enclosing = b.enclosing
  slots : b'.slots = b.slots
  types : KeepsTypes b.regs b'.regs

namespace Adds

variable {b b₁ b₂ : Builder} {code₁ code₂ : List Instr}

theorem refl (b : Builder) : b.Adds [] b := ⟨by simp, rfl, rfl, fun _ _ h => h⟩

theorem trans (h₁ : b.Adds code₁ b₁) (h₂ : b₁.Adds code₂ b₂) : b.Adds (code₁ ++ code₂) b₂ where
  current := by rw [h₂.current, h₁.current, List.append_assoc]
  enclosing := h₂.enclosing.trans h₁.enclosing
  slots := h₂.slots.trans h₁.slots
  types r ty h := h₂.types r ty (h₁.types r ty h)

/-- A new register. -/
theorem alloc (b : Builder) (ty : Ty) : b.Adds [] { b with regs := b.regs.push ty } := by
  refine ⟨by simp, rfl, rfl, fun r ty' h => ?_⟩
  have hlt := (Array.getElem?_eq_some_iff.mp h).1
  rwa [Array.getElem?_push, if_neg (Nat.ne_of_lt hlt)]

theorem emit (b : Builder) (i : Instr) : b.Adds [i] { b with current := b.current.push i } :=
  ⟨by simp, rfl, rfl, fun _ _ h => h⟩

/-- Code in a block of its own, which is given back. -/
theorem block {b b₁ : Builder} {code body : List Instr} {b₂ : Builder} (h : (beginBlock b).2.Adds code b₁)
    (hend : endBlock b₁ = (body, b₂)) : body = code ∧ b.Adds [] b₂ ∧ b₂.regs = b₁.regs := by
  have henclosing : b₁.enclosing = b.current :: b.enclosing := h.enclosing
  unfold endBlock at hend
  rw [henclosing] at hend
  obtain ⟨rfl, rfl⟩ := Prod.mk.inj hend
  exact ⟨by simpa [beginBlock] using h.current, ⟨by simp, rfl, h.slots, h.types⟩, rfl⟩

/-- What was added to an empty builder is the code that it is finished as. -/
theorem finish {target : Target} {slots : Nat} {code : List Instr} {b : Builder}
    (h : Adds { target, slots } code b) : b.finish.body = code ∧ b.finish.slots = slots := by
  have hcurrent : b.current.toList = code := by simpa using h.current
  have henclosing : b.enclosing = [] := h.enclosing
  exact ⟨by simp [Builder.finish, outermost, henclosing, hcurrent], h.slots⟩

end Adds

/-- A later point of building: types are kept, and what is written stays written. -/
structure Since (b : Builder) (W : Set Reg) (b' : Builder) (W' : Set Reg) : Prop where
  types : KeepsTypes b.regs b'.regs
  written : W ⊆ W'

/-- Code was added that is sound from the written registers `W` and only makes the given jumps; `post`
holds of what is written after it. -/
def Yields (σ : Regime) (J : Set Jump) (W : Set Reg) (b b' : Builder) (post : Set Reg → Prop) : Prop :=
  ∃ code W', b.Adds code b' ∧ W ⊆ W' ∧ Instr.Sound σ b'.regs J W code W' ∧ post W'

/-- A step of building adds sound code without jumps; `post` holds of its result, the builder and what
is written after it. -/
def Makes {α : Type} (σ : Regime) (W : Set Reg) (b : Builder) (action : BuildM α)
    (post : α → Builder → Set Reg → Prop) : Prop :=
  Yields σ ∅ W b (action b).2 (post (action b).1 (action b).2)

end Builder

/-- An operand is there with its type, and is written. -/
structure Operand.Ready (σ : Regime) (b : Builder) (W : Set Reg) (o : Operand) : Prop where
  type : b.regs[o.reg]? = some o.ty
  written : o.reg ∈ W
  regular : σ.typed → o.ty.Regular

/-- An operand stays ready. -/
theorem Operand.Ready.since {σ : Regime} {b b' : Builder} {W W' : Set Reg} {o : Operand} (h : o.Ready σ b W)
    (hsince : b.Since W b' W') : o.Ready σ b' W' :=
  ⟨hsince.types _ _ h.type, hsince.written h.written, h.regular⟩

namespace Builder

variable {σ : Regime} {J J' : Set Jump} {W W' : Set Reg} {b b' b₁ b₂ : Builder} {α β : Type}

variable {Wt : Set Reg} {args : List Operand} {t : List Instr} {u : Unit}

namespace Since

theorem refl (b : Builder) (W : Set Reg) : b.Since W b W := ⟨fun _ _ h => h, subset_rfl⟩

theorem trans {W₁ W₂ : Set Reg} (h₁ : b.Since W b₁ W₁) (h₂ : b₁.Since W₁ b₂ W₂) : b.Since W b₂ W₂ :=
  ⟨fun r ty h => h₂.types r ty (h₁.types r ty h), h₁.written.trans h₂.written⟩

theorem beginBlock (h : b.Since W b₁ W') : b.Since W b₁.beginBlock.2 W' := ⟨h.types, h.written⟩

end Since

namespace Yields

variable {post post' : Set Reg → Prop}

theorem refl (h : post W) : Yields σ J W b b post := ⟨[], W, .refl b, subset_rfl, .nil subset_rfl, h⟩

theorem bind (h : Yields σ J W b b₁ post) (hk : ∀ W₁, b.Since W b₁ W₁ → post W₁ → Yields σ J W₁ b₁ b₂ post') :
    Yields σ J W b b₂ post' := by
  obtain ⟨code₁, W₁, hadds₁, hW₁, hsound₁, hpost⟩ := h
  obtain ⟨code₂, W₂, hadds₂, hW₂, hsound₂, hpost'⟩ := hk W₁ ⟨hadds₁.types, hW₁⟩ hpost
  exact ⟨_, W₂, hadds₁.trans hadds₂, hW₁.trans hW₂, (hsound₁.mono hadds₂.types).append hsound₂, hpost'⟩

theorem weaken (h : Yields σ J W b b' post) (hJ : J ⊆ J')
    (hpost : ∀ W', b.Since W b' W' → post W' → post' W') : Yields σ J' W b b' post' := by
  obtain ⟨code, W', hadds, hW, hsound, hp⟩ := h
  exact ⟨code, W', hadds, hW, hsound.weaken hJ subset_rfl subset_rfl, hpost W' ⟨hadds.types, hW⟩ hp⟩

/-- Code after a block was given back. -/
theorem after (hadds : b.Adds [] b₁) (h : Yields σ J W b₁ b₂ post) : Yields σ J W b b₂ post := by
  obtain ⟨code, W', hadds', hW, hsound, hp⟩ := h
  exact ⟨code, W', hadds.trans hadds', hW, hsound, hp⟩

/-- Code in a block of its own is sound, and leaves the open block as it was. -/
theorem block {body : List Instr} (h : Yields σ J W (beginBlock b).2 b₁ post) (hend : endBlock b₁ = (body, b₂)) :
    b.Adds [] b₂ ∧ b₂.regs = b₁.regs ∧ ∃ W', W ⊆ W' ∧ Instr.Sound σ b₂.regs J W body W' ∧ post W' := by
  obtain ⟨code, W', hadds, hW, hsound, hp⟩ := h
  obtain ⟨rfl, hadds', hregs⟩ := hadds.block hend
  exact ⟨hadds', hregs, W', hW, hregs ▸ hsound, hp⟩

end Yields

namespace Makes

variable {post post' : α → Builder → Set Reg → Prop}

variable {action : BuildM α}

theorem pure {a : α} (h : post a b W) : Makes σ W b (Pure.pure a) post := Yields.refl h

theorem bind {k : α → BuildM β} {post' : β → Builder → Set Reg → Prop} (h : Makes σ W b action post)
    (hk : ∀ a b₁ W₁, b.Since W b₁ W₁ → post a b₁ W₁ → Makes σ W₁ b₁ (k a) post') : Makes σ W b (action >>= k) post' :=
  Yields.bind h fun W₁ hsince hpost => hk _ _ W₁ hsince hpost

theorem weaken (h : Makes σ W b action post) (hpost : ∀ a b' W', b.Since W b' W' → post a b' W' → post' a b' W') :
    Makes σ W b action post' :=
  Yields.weaken h subset_rfl fun W' hsince hp => hpost _ _ W' hsince hp

/-- What a step adds, from its result. -/
theorem yields (h : Makes σ W b action post) {a : α} (heq : action b = (a, b')) : Yields σ J W b b' (post a b') := by
  unfold Makes at h
  rw [heq] at h
  exact h.weaken (Set.empty_subset J) fun _ _ hp => hp

theorem mapM {f : α → BuildM β} {Q : β → Builder → Set Reg → Prop} {xs : List α}
    (hmono : ∀ y b₁ W₁ b₂ W₂, Since b₁ W₁ b₂ W₂ → Q y b₁ W₁ → Q y b₂ W₂)
    (hf : ∀ x ∈ xs, ∀ b₁ W₁, b.Since W b₁ W₁ → Makes σ W₁ b₁ (f x) Q) :
    Makes σ W b (xs.mapM f) fun ys b' W' => ys.length = xs.length ∧ ∀ y ∈ ys, Q y b' W' := by
  induction xs generalizing b W with
  | nil => exact pure ⟨rfl, nofun⟩
  | cons x xs ih =>
    rw [List.mapM_cons]
    refine (hf x List.mem_cons_self b W (.refl b W)).bind fun y b₁ W₁ hsince hy => ?_
    refine (ih fun x' hx' b₂ W₂ hsince₂ => hf x' (List.mem_cons_of_mem _ hx') b₂ W₂ (hsince.trans hsince₂)).bind ?_
    refine fun ys b₂ W₂ hsince₂ ⟨hlength, hys⟩ => pure ⟨by simp [hlength], List.forall_mem_cons.mpr ⟨?_, hys⟩⟩
    exact hmono y b₁ W₁ b₂ W₂ hsince₂ hy

end Makes

theorem makes_alloc (ty : Ty) : Makes σ W b (alloc ty) fun o b' _ => b'.regs[o.reg]? = some ty ∧ o.ty = ty :=
  ⟨[], W, .alloc b ty, subset_rfl, .nil subset_rfl, by simp [alloc], rfl⟩

/-- An instruction without bodies that reads the given operands, and may write a register. -/
structure Reading (args : List Operand) (dst : Option Reg) (i : Instr) : Prop where
  leaf : i.bodies = []
  jump : i.isJump = false
  dst : i.dst? = dst
  uses : i.uses = args.map Operand.reg

/-- One more instruction without bodies, over operands that are ready. -/
theorem makes_emit {i : Instr} {dst : Option Reg} (hi : Reading args dst i) (res : Ty)
    (hargs : ∀ a ∈ args, a.Ready σ b W) (hdst : ∀ d, dst = some d → b.regs[d]? = some res)
    (hrule : i.Rule σ (args.map Operand.ty) res) : Makes σ W b (emit i) fun _ _ W' => ∀ d, dst = some d → d ∈ W' := by
  have htypes : Instr.HaveTypes b.regs i.uses (args.map Operand.ty) := by
    rw [hi.uses, Instr.HaveTypes, List.forall₂_map_left_iff, List.forall₂_map_right_iff, List.forall₂_same]
    exact fun a ha => (hargs a ha).type
  refine ⟨[i], _, .emit b i, Set.subset_union_left, ?_, fun d hd => .inr (hi.dst.trans hd)⟩
  refine .leaf hi.leaf hi.jump ⟨_, res, htypes, fun d hd => hdst d (hi.dst.symm.trans hd), hrule⟩ (fun r hr => ?_)
    (.nil subset_rfl)
  rw [hi.uses] at hr
  obtain ⟨a, ha, rfl⟩ := List.mem_map.mp hr
  exact (hargs a ha).written

/-- An operand of a type is ready after a step of building. -/
abbrev ReadyAs (σ : Regime) (ty : Ty) (o : Operand) (b : Builder) (W : Set Reg) : Prop := o.Ready σ b W ∧ o.ty = ty

theorem ReadyAs.since {σ : Regime} {ty : Ty} {o : Operand} {b b' : Builder} {W W' : Set Reg} (h : ReadyAs σ ty o b W)
    (hsince : b.Since W b' W') : ReadyAs σ ty o b' W' := ⟨h.1.since hsince, h.2⟩

/-- An instruction that puts a value of a type into a new register. -/
theorem makes_define {ty : Ty} {mk : Reg → Instr} (hmk : ∀ r, Reading args (some r) (mk r))
    (hargs : ∀ a ∈ args, a.Ready σ b W) (hrule : ∀ r, (mk r).Rule σ (args.map Operand.ty) ty)
    (hregular : σ.typed → ty.Regular) :
    Makes σ W b (do
      let dst ← alloc ty
      emit (mk dst.reg)
      return dst) (ReadyAs σ ty) := by
  refine (makes_alloc ty).bind fun o b₁ W₁ hsince ⟨htype, hty⟩ => ?_
  refine (makes_emit (hmk _) ty (fun a ha => (hargs a ha).since hsince) (fun d hd => ?_) (hrule _)).bind
    fun _ b₂ W₂ hsince₂ hwritten => .pure ⟨⟨?_, hwritten o.reg rfl, fun h => ?_⟩, hty⟩
  · exact Option.some.inj hd ▸ htype
  · exact hty ▸ hsince₂.types _ _ htype
  · exact hty ▸ hregular h

variable {o x y : Operand} {ty goal : Ty}

/-- A constant. -/
theorem makes_constant {v : Value} (hv : σ.typed → v.HasType v.ty ∧ v.ty.Regular) :
    Makes σ W b (constant v) (ReadyAs σ v.ty) :=
  makes_define (fun r => (⟨rfl, rfl, rfl, rfl⟩ : Reading [] _ (.const r v))) nofun (fun _ h => (hv h).1) fun h => (hv h).2

/-- A conversion of an operand to a type that its own converts to. -/
theorem makes_convert (ho : o.Ready σ b W) (hconverts : σ.typed → o.ty.convertsTo goal = true ∧ goal.Regular) :
    Makes σ W b (convert o goal) (ReadyAs σ goal) := by
  unfold convert
  split
  · next h => exact .pure ⟨ho, h⟩
  · refine makes_define (fun r => (⟨rfl, rfl, rfl, rfl⟩ : Reading [o] _ (.convert r o.reg))) (by simpa using ho)
      (fun _ => ⟨o.ty, rfl, fun h a ha => ?_⟩) fun h => (hconverts h).2
    exact ha.convert? (ho.regular h) (hconverts h).1

/-- An operator on two operands of one type. -/
theorem makes_binary {op : BinaryOp} {res : Ty} (hx : ReadyAs σ ty x b W) (hy : ReadyAs σ ty y b W)
    (hop : σ.typed → (∀ u v : Value, u.HasType ty → v.HasType ty → (Value.binary op u v).HasType res) ∧ res.Regular) :
    Makes σ W b (binary op x y res) (ReadyAs σ res) :=
  makes_define (fun r => (⟨rfl, rfl, rfl, rfl⟩ : Reading [x, y] _ (.binary r op x.reg y.reg)))
    (by simpa using ⟨hx.1, hy.1⟩) (fun _ => ⟨ty, by simp [hx.2, hy.2], fun h => (hop h).1⟩) fun h => (hop h).2

/-- An operator on one operand. -/
theorem makes_unary {op : UnaryOp} {res : Ty} (hx : ReadyAs σ ty x b W)
    (hop : σ.typed → (∀ u : Value, u.HasType ty → (Value.unary op u).HasType res) ∧ res.Regular) :
    Makes σ W b (unary op x res) (ReadyAs σ res) :=
  makes_define (fun r => (⟨rfl, rfl, rfl, rfl⟩ : Reading [x] _ (.unary r op x.reg)))
    (by simpa using hx.1) (fun _ => ⟨ty, by simp [hx.2], fun h => (hop h).1⟩) fun h => (hop h).2

/-- An array from its components. -/
theorem makes_pack {items : List Operand} (hitems : ∀ x ∈ items, x.Ready σ b W)
    (hty : σ.typed → ty.Regular ∧ ty.isArray = true ∧ items.length = ty.componentCount ∧
      ∀ x ∈ items, x.ty = ty.elementTy) : Makes σ W b (pack items ty) (ReadyAs σ ty) := by
  refine makes_define (fun r => (⟨rfl, rfl, rfl, rfl⟩ : Reading items _ (.pack r (items.map Operand.reg)))) hitems
    (fun _ h vs hvs => ?_) fun h => (hty h).1
  obtain ⟨-, harray, hlength, htypes⟩ := hty h
  obtain ⟨kind, hkind⟩ : ∃ kind, ty.element? = some kind := by
    cases ty <;> first | exact ⟨_, rfl⟩ | cases harray
  refine Value.hasType_pack harray hkind ?_ fun v hv => ?_
  · rw [hvs.length_eq, List.length_map, hlength]
  · have helement : ty.elementTy = .scalar kind := by rw [Ty.elementTy, hkind]
    exact helement ▸ Value.hasType_of_forall₂ hvs (List.forall_mem_map.mpr htypes) v hv

/-- A component of an array. -/
theorem makes_extract (hx : x.Ready σ b W) (hy : ReadyAs σ .int32 y b W) :
    Makes σ W b (extract x y) (ReadyAs σ x.ty.elementTy) := by
  refine makes_define (fun r => (⟨rfl, rfl, rfl, rfl⟩ : Reading [x, y] _ (.extract r x.reg y.reg))) (by simpa using ⟨hx, hy.1⟩)
    (fun _ => ⟨x.ty, by simp [hy.2], rfl⟩) fun _ => ?_
  unfold Ty.elementTy
  split <;> trivial

/-- A component of an array at a constant index. -/
theorem makes_extractAt (hx : x.Ready σ b W) (i : Nat) :
    Makes σ W b (extractAt x i) (ReadyAs σ x.ty.elementTy) := by
  have hint : Makes σ W b (int (Int32.ofInt i)) (ReadyAs σ .int32) := makes_constant fun _ => ⟨.scalar rfl, trivial⟩
  exact hint.bind fun y b₁ W₁ hsince hy => makes_extract (hx.since hsince) hy

/-- The value of a slot. -/
theorem makes_readSlot {slot : Nat} (hslot : σ.slots slot ty) (hregular : σ.typed → ty.Regular) :
    Makes σ W b (readSlot slot ty) (ReadyAs σ ty) :=
  makes_define (fun r => (⟨rfl, rfl, rfl, rfl⟩ : Reading [] _ (.read r slot))) nofun (fun _ => hslot) hregular

/-- What the voxel provides. -/
theorem makes_intrinsic (op : Intrinsic) : Makes σ W b (intrinsic op) (ReadyAs σ op.ty) :=
  makes_define (fun r => (⟨rfl, rfl, rfl, rfl⟩ : Reading [] _ (.intrinsic r op))) nofun (fun _ => rfl) fun _ => by
    cases op <;> decide

/-- A call of a native body. -/
theorem makes_callNative {name : String} {body : NativeBody} {ret : Ty} (hargs : ∀ a ∈ args, a.Ready σ b W)
    (hbody : σ.typed → body.Respects (args.map Operand.ty) ret ∧ ret.Regular) :
    Makes σ W b (callNative name body args ret) (ReadyAs σ ret) :=
  makes_define (fun r => (⟨rfl, rfl, rfl, rfl⟩ : Reading args _ (.call r name body (args.map Operand.reg)))) hargs
    (fun _ h => (hbody h).1) fun h => (hbody h).2

/-- A register that is overwritten by another of its type. -/
theorem makes_assign (hx : b.regs[x.reg]? = some ty) (hy : ReadyAs σ ty y b W) :
    Makes σ W b (assign x y) fun _ _ W' => x.reg ∈ W' :=
  (makes_emit (⟨rfl, rfl, rfl, rfl⟩ : Reading [y] _ (.copy x.reg y.reg)) ty (by simpa using hy.1)
    (fun d hd => Option.some.inj hd ▸ hx) (by simp [Instr.Rule, hy.2])).weaken fun _ _ _ _ h => h _ rfl

/-- A component that is replaced in its register. -/
theorem makes_insert {target index value : Operand} (htarget : target.Ready σ b W)
    (hindex : ReadyAs σ .int32 index b W) (hvalue : ReadyAs σ target.ty.elementTy value b W) :
    Makes σ W b (insert target index value) fun _ _ _ => True :=
  (makes_emit (⟨rfl, rfl, rfl, rfl⟩ : Reading [target, index, value] _ (.insert target.reg target.reg index.reg value.reg)) target.ty
    (by simpa using ⟨htarget, hindex.1, hvalue.1⟩) (fun d hd => Option.some.inj hd ▸ htarget.type)
    (by simp [Instr.Rule, hindex.2, hvalue.2])).weaken fun _ _ _ _ _ => trivial

/-- A slot that is written. -/
theorem makes_writeSlot {slot : Nat} (hslot : σ.slots slot ty) (hx : ReadyAs σ ty x b W) :
    Makes σ W b (writeSlot slot x) fun _ _ _ => True :=
  (makes_emit (⟨rfl, rfl, rfl, rfl⟩ : Reading [x] _ (.write slot x.reg)) ty (by simpa using hx.1) nofun
    ⟨ty, by simp [hx.2], hslot⟩).weaken fun _ _ _ _ _ => trivial

/-- A branch on a truth value to bodies that are sound. -/
theorem yields_branch {c : Operand} {e : List Instr} {We : Set Reg} (hc : ReadyAs σ .bool c b W)
    (ht : Instr.Sound σ b.regs J W t Wt) (he : Instr.Sound σ b.regs J W e We)
    (hemit : emit (.branch c.reg t e) b = (u, b')) : Yields σ J W b b' fun W' => W' = W := by
  obtain rfl : { b with current := b.current.push (.branch c.reg t e) } = b' := congrArg Prod.snd hemit
  refine ⟨_, W, .emit b _, subset_rfl, .branch ⟨[.bool], .void, ?_, nofun, rfl⟩ hc.1.written ht he (.nil subset_rfl), rfl⟩
  exact .cons (hc.2 ▸ hc.1.type) .nil

/-- A loop whose parts are sound. -/
theorem yields_loop {k : LoopKind} {o : Option Operand} {body s : List Instr} {Jb : Set Jump} {Wb Ws Ws' : Set Reg}
    (ht : Instr.Sound σ b.regs ∅ W t Wt) (ho : ∀ c ∈ o, ReadyAs σ .bool c b Wt)
    (hbody : Instr.Sound σ b.regs Jb W body Wb) (hreturn : .return ∈ J) (hbetween : Ws ⊆ W ∨ (Ws ⊆ Wb ∧ Jb = ∅))
    (hs : Instr.Sound σ b.regs J Ws s Ws') (hemit : emit (.loop k t (o.map Operand.reg) body s) b = (u, b')) :
    Yields σ J W b b' fun W' => W' = W := by
  obtain rfl : { b with current := b.current.push (.loop k t (o.map Operand.reg) body s) } = b' :=
    congrArg Prod.snd hemit
  refine ⟨_, W, .emit b _, subset_rfl, .loop ?_ ht ?_ hbody (fun _ => hreturn) hbetween hs (.nil subset_rfl), rfl⟩
  · cases o with
    | none => exact ⟨[], .void, .nil, nofun, nofun⟩
    | some c => exact ⟨[.bool], .void, .cons ((ho c rfl).2 ▸ (ho c rfl).1.type) .nil, nofun, by simp [Instr.Rule]⟩
  · intro r hr
    obtain ⟨c, hc, rfl⟩ := Option.map_eq_some_iff.mp hr
    exact (ho c hc).1.written

/-- A jump that is allowed. -/
theorem yields_jump {word : Jump} (hword : word ∈ J) (hemit : emit (.jump word) b = (u, b')) :
    Yields σ J W b b' fun W' => W' = W := by
  obtain rfl : { b with current := b.current.push (.jump word) } = b' := congrArg Prod.snd hemit
  exact ⟨_, W, .emit b _, subset_rfl, .jump hword (.nil subset_rfl), rfl⟩

/-- A branch on a truth value to bodies without jumps. -/
theorem makes_branch {c : Operand} {e : List Instr} {We : Set Reg} (hc : ReadyAs σ .bool c b W)
    (ht : Instr.Sound σ b.regs ∅ W t Wt) (he : Instr.Sound σ b.regs ∅ W e We) :
    Makes σ W b (emit (.branch c.reg t e)) fun _ _ _ => True :=
  (yields_branch hc ht he rfl).weaken subset_rfl fun _ _ _ => trivial

/-- A step of building in a block of its own. -/
theorem makes_inBlock {action : BuildM α} {post : α → Builder → Set Reg → Prop}
    (h : ∀ b₁, b.Since W b₁ W → Makes σ W b₁ action post) :
    Makes σ W b (inBlock action) fun r b' _ => ∃ W', Instr.Sound σ b'.regs ∅ W r.2 W' := by
  obtain ⟨hadds, -, W', -, hsound, -⟩ := Yields.block (h (beginBlock b).2 (Since.refl b W).beginBlock) rfl
  exact ⟨[], W, hadds, subset_rfl, .nil subset_rfl, W', hsound⟩

section

variable {σ : Type} {x : OptionT (StateM σ) α} {k : α → OptionT (StateM σ) β} {s s' : σ}

/-- A step after one that has a result. -/
theorem run_bind_of_some {a : α} (h : x.run s = (some a, s')) : (x >>= k).run s = (k a).run s' := by
  rw [OptionT.run_bind, Option.elimM]
  change Option.elim (x.run s).1 (Pure.pure none) (fun a => (k a).run) (x.run s).2 = _
  rw [h]
  rfl

theorem run_bind_of_none (h : x.run s = (none, s')) : (x >>= k).run s = (none, s') := by
  rw [OptionT.run_bind, Option.elimM]
  change Option.elim (x.run s).1 (Pure.pure none) (fun a => (k a).run) (x.run s).2 = _
  rw [h]
  rfl

/-- A result of two steps comes from a result of the first. -/
theorem run_bind_eq_some {e : β} (h : (x >>= k).run s = (some e, s')) :
    ∃ a s₁, x.run s = (some a, s₁) ∧ (k a).run s₁ = (some e, s') := by
  rcases hrun : x.run s with ⟨_ | a, s₁⟩
  · rw [run_bind_of_none hrun] at h
    cases (Prod.mk.inj h).1
  · exact ⟨a, s₁, rfl, run_bind_of_some hrun ▸ h⟩

end

/-- A step of building whose result may be missing. -/
def MakesPart (σ : Regime) (W : Set Reg) (b : Builder) (action : OptionT BuildM α)
    (post : α → Builder → Set Reg → Prop) : Prop :=
  Makes σ W b action.run fun r b' W' => ∀ a ∈ r, post a b' W'

namespace MakesPart

variable {post : α → Builder → Set Reg → Prop}

theorem pure {a : α} (h : post a b W) : MakesPart σ W b (Pure.pure a) post :=
  Makes.pure fun _ ha' => Option.some.inj ha' ▸ h

theorem failure : MakesPart σ W b (failure : OptionT BuildM α) post := Makes.pure nofun

theorem lift {action : BuildM α} (h : Makes σ W b action post) : MakesPart σ W b (liftM action) post :=
  Makes.bind h fun _ _ _ _ ha => Makes.pure fun _ ha' => Option.some.inj ha' ▸ ha

theorem bind {action : OptionT BuildM α} {k : α → OptionT BuildM β} {post' : β → Builder → Set Reg → Prop}
    (h : MakesPart σ W b action post)
    (hk : ∀ a b₁ W₁, b.Since W b₁ W₁ → post a b₁ W₁ → MakesPart σ W₁ b₁ (k a) post') :
    MakesPart σ W b (action >>= k) post' := by
  unfold MakesPart
  rw [OptionT.run_bind]
  refine Makes.bind h fun r b₁ W₁ hsince hr => ?_
  cases r with
  | none => exact Makes.pure nofun
  | some a => exact hk a b₁ W₁ hsince (hr a rfl)

theorem weaken {action : OptionT BuildM α} {post' : α → Builder → Set Reg → Prop} (h : MakesPart σ W b action post)
    (hpost : ∀ a b' W', post a b' W' → post' a b' W') : MakesPart σ W b action post' :=
  Makes.weaken h fun _ b' W' _ hr a ha => hpost a b' W' (hr a ha)

end MakesPart

end Builder

end Elementwise
