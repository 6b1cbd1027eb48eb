import Elementwise.Proofs.Function.Standard
import Elementwise.Proofs.Generate.Statements
import Elementwise.Proofs.Registry.Build

/-!
# The slots that generated code names

Generation looks a field up before it reads or writes its slot, and converts a value to the type of the place
that receives it. So all code that it puts into a block names slots of the registry, over registers of the
types of their entries, whether or not the term around it can be generated. Inline functions build code of
their own, which has to keep to the registry by itself; those of the standard library name no slot at all.
-/

namespace Elementwise

/-- A slot that an instruction reads or writes is that of an entry, over a register of the entry's type; one
that is written is that of a writable entry. -/
def Instr.Registered (r : Registry) (types : Array Ty) (i : Instr) : Prop :=
  (∀ dst slot, i = .read dst slot → ∃ e, r.at? slot = some e ∧ types[dst]? = some e.ty) ∧
    ∀ slot src, i = .write slot src → ∃ e, r.at? slot = some e ∧ types[src]? = some e.ty ∧ e.writable = true

/-- All code keeps to a registry. -/
def Instr.AllRegistered (r : Registry) (types : Array Ty) (code : List Instr) : Prop :=
  ∀ i ∈ partsAll code, i.Registered r types

/-- The register of an operand was declared with the type of the operand. -/
def Operand.Typed (b : Builder) (o : Operand) : Prop := b.regs[o.reg]? = some o.ty

variable {r : Registry} {b b' : Builder} {o x y : Operand} {ty : Ty} {α β : Type}

/-- An instruction that neither reads nor writes a slot. -/
theorem Instr.Registered.of_ne {types : Array Ty} {i : Instr} (hread : ∀ dst slot, i ≠ .read dst slot)
    (hwrite : ∀ slot src, i ≠ .write slot src) : i.Registered r types :=
  ⟨fun dst slot h => absurd h (hread dst slot), fun slot src h => absurd h (hwrite slot src)⟩

theorem Instr.AllRegistered.mono {types types' : Array Ty} {code : List Instr} (h : AllRegistered r types code)
    (hle : KeepsTypes types types') : AllRegistered r types' code := by
  intro i hi
  obtain ⟨hread, hwrite⟩ := h i hi
  constructor
  · intro dst slot heq
    obtain ⟨e, he, hty⟩ := hread dst slot heq
    exact ⟨e, he, hle _ _ hty⟩
  · intro slot src heq
    obtain ⟨e, he, hty, hwritable⟩ := hwrite slot src heq
    exact ⟨e, he, hle _ _ hty, hwritable⟩

/-! ## Steps of building -/

namespace Builder

/-- Code was added that keeps to a registry, and maybe registers. -/
def Gains (r : Registry) (b b' : Builder) : Prop := ∃ code, b.Adds code b' ∧ Instr.AllRegistered r b'.regs code

namespace Gains

variable {b₁ b₂ : Builder}

theorem refl (b : Builder) : Gains r b b := ⟨[], .refl b, nofun⟩

theorem trans (h : Gains r b b₁) (h' : Gains r b₁ b₂) : Gains r b b₂ := by
  obtain ⟨code, hadds, hcode⟩ := h
  obtain ⟨code', hadds', hcode'⟩ := h'
  refine ⟨code ++ code', hadds.trans hadds', ?_⟩
  rw [Instr.AllRegistered, Instr.partsAll_append, List.forall_mem_append]
  exact ⟨hcode.mono hadds'.types, hcode'⟩

/-- Registers keep their types. -/
theorem types (h : Gains r b b') : KeepsTypes b.regs b'.regs := by
  obtain ⟨code, hadds, -⟩ := h
  exact hadds.types

theorem typed (h : Gains r b b') (ho : o.Typed b) : o.Typed b' := h.types _ _ ho

/-- What was added in a block of its own is given back, and keeps to the registry. -/
theorem block {body : List Instr} (h : Gains r (beginBlock b).2 b₁) (hend : endBlock b₁ = (body, b₂)) :
    Gains r b b₂ ∧ b₂.regs = b₁.regs ∧ Instr.AllRegistered r b₂.regs body := by
  obtain ⟨code, hadds, hcode⟩ := h
  obtain ⟨rfl, hadds', hregs⟩ := hadds.block hend
  exact ⟨⟨[], hadds', nofun⟩, hregs, hregs ▸ hcode⟩

end Gains

/-- A step of building adds only code that keeps to a registry; `post` holds of its result and of the builder
after it. -/
def Keeps (r : Registry) (b : Builder) (action : BuildM α) (post : α → Builder → Prop) : Prop :=
  Gains r b (action b).2 ∧ post (action b).1 (action b).2

/-- An operand of a type whose register was declared with it. -/
abbrev TypedAs (ty : Ty) (o : Operand) (b : Builder) : Prop := o.Typed b ∧ o.ty = ty

theorem Gains.typedAs (h : Gains r b b') (ho : TypedAs ty o b) : TypedAs ty o b' := ⟨h.typed ho.1, ho.2⟩

namespace Keeps

variable {post : α → Builder → Prop}

theorem pure {a : α} (h : post a b) : Keeps r b (Pure.pure a) post := ⟨.refl b, h⟩

theorem bind {action : BuildM α} {k : α → BuildM β} {post' : β → Builder → Prop} (h : Keeps r b action post)
    (hk : ∀ a b₁, Gains r b b₁ → post a b₁ → Keeps r b₁ (k a) post') : Keeps r b (action >>= k) post' := by
  obtain ⟨hgains, hpost⟩ := h
  obtain ⟨hgains', hpost'⟩ := hk _ _ hgains hpost
  exact ⟨hgains.trans hgains', hpost'⟩

theorem weaken {action : BuildM α} {post' : α → Builder → Prop} (h : Keeps r b action post)
    (hpost : ∀ a b', post a b' → post' a b') : Keeps r b action post' :=
  ⟨h.1, hpost _ _ h.2⟩

theorem typed {action : BuildM Operand} (h : Keeps r b action (TypedAs ty)) : Keeps r b action fun o b' => o.Typed b' :=
  h.weaken fun _ _ ho => ho.1

end Keeps

theorem keeps_alloc (ty : Ty) : Keeps r b (alloc ty) (TypedAs ty) :=
  ⟨⟨[], .alloc b ty, nofun⟩, by simp [Operand.Typed, alloc], rfl⟩

theorem keeps_emit {i : Instr} (h : ∀ j ∈ i.parts, j.Registered r b.regs) : Keeps r b (emit i) fun _ _ => True :=
  ⟨⟨[i], .emit b i, by simpa [Instr.AllRegistered, Instr.partsAll, emit] using h⟩, trivial⟩

/-- An instruction without bodies. -/
theorem keeps_leaf {i : Instr} (hleaf : i.bodies = []) (h : i.Registered r b.regs) :
    Keeps r b (emit i) fun _ _ => True :=
  keeps_emit (by simpa [Instr.parts_leaf hleaf] using h)

/-- An instruction that puts a value of a type into a new register. -/
theorem keeps_define (mk : Reg → Instr) (hleaf : ∀ d, (mk d).bodies = [])
    (h : ∀ d (types : Array Ty), types[d]? = some ty → (mk d).Registered r types) :
    Keeps r b (do
      let dst ← alloc ty
      emit (mk dst.reg)
      return dst) (TypedAs ty) := by
  refine (keeps_alloc ty).bind fun dst b₁ _ hdst => ?_
  refine (keeps_leaf (hleaf _) (h _ _ ?_)).bind fun _ b₂ hgains _ => .pure (hgains.typedAs hdst)
  exact hdst.2 ▸ hdst.1

theorem keeps_constant (v : Value) : Keeps r b (constant v) (TypedAs v.ty) :=
  keeps_define (.const · v) (fun _ => rfl) fun _ _ _ => .of_ne (by simp) (by simp)

/-- A conversion. -/
theorem keeps_convert (ho : o.Typed b) (goal : Ty) : Keeps r b (convert o goal) (TypedAs goal) := by
  unfold convert
  split
  · next h => exact .pure ⟨ho, h⟩
  · exact keeps_define (.convert · o.reg) (fun _ => rfl) fun _ _ _ => .of_ne (by simp) (by simp)

theorem keeps_binary (op : BinaryOp) (x y : Operand) (ty : Ty) : Keeps r b (binary op x y ty) (TypedAs ty) :=
  keeps_define (.binary · op x.reg y.reg) (fun _ => rfl) fun _ _ _ => .of_ne (by simp) (by simp)

theorem keeps_unary (op : UnaryOp) (x : Operand) (ty : Ty) : Keeps r b (unary op x ty) (TypedAs ty) :=
  keeps_define (.unary · op x.reg) (fun _ => rfl) fun _ _ _ => .of_ne (by simp) (by simp)

theorem keeps_pack (items : List Operand) (ty : Ty) : Keeps r b (pack items ty) (TypedAs ty) :=
  keeps_define (.pack · (items.map Operand.reg)) (fun _ => rfl) fun _ _ _ => .of_ne (by simp) (by simp)

theorem keeps_extract (x y : Operand) : Keeps r b (extract x y) (TypedAs x.ty.elementTy) :=
  keeps_define (.extract · x.reg y.reg) (fun _ => rfl) fun _ _ _ => .of_ne (by simp) (by simp)

/-- A call of a native body. -/
theorem keeps_callNative (name : String) (body : NativeBody) (args : List Operand) (ret : Ty) :
    Keeps r b (callNative name body args ret) (TypedAs ret) :=
  keeps_define (.call · name body (args.map Operand.reg)) (fun _ => rfl) fun _ _ _ => .of_ne (by simp) (by simp)

theorem keeps_assign (x y : Operand) : Keeps r b (assign x y) fun _ _ => True :=
  keeps_leaf rfl (.of_ne (by simp) (by simp))

theorem keeps_insert (x y z : Operand) : Keeps r b (insert x y z) fun _ _ => True :=
  keeps_leaf rfl (.of_ne (by simp) (by simp))

/-- A branch to bodies that keep to the registry. -/
theorem keeps_branch (c : Operand) {t e : List Instr} (ht : Instr.AllRegistered r b.regs t)
    (he : Instr.AllRegistered r b.regs e) : Keeps r b (emit (.branch c.reg t e)) fun _ _ => True := by
  refine keeps_emit ?_
  rw [Instr.parts, List.forall_mem_cons, List.forall_mem_append]
  exact ⟨.of_ne (by simp) (by simp), ht, he⟩

/-- A loop whose parts keep to the registry. -/
theorem keeps_loop (kind : LoopKind) (c : Option Reg) {t body s : List Instr} (ht : Instr.AllRegistered r b.regs t)
    (hbody : Instr.AllRegistered r b.regs body) (hs : Instr.AllRegistered r b.regs s) :
    Keeps r b (emit (.loop kind t c body s)) fun _ _ => True := by
  refine keeps_emit ?_
  rw [Instr.parts, List.forall_mem_cons, List.forall_mem_append, List.forall_mem_append]
  exact ⟨.of_ne (by simp) (by simp), ⟨ht, hbody⟩, hs⟩

/-- The value of the slot of an entry. -/
theorem keeps_readSlot {slot : Nat} {e : Entry} (he : r.at? slot = some e) :
    Keeps r b (readSlot slot e.ty) (TypedAs e.ty) := by
  refine keeps_define (.read · slot) (fun _ => rfl) fun d types htype => ⟨fun dst slot' heq => ?_, nofun⟩
  obtain ⟨rfl, rfl⟩ := Instr.read.inj heq
  exact ⟨e, he, htype⟩

/-- The slot of a writable entry is written with a value of its type. -/
theorem keeps_writeSlot {slot : Nat} {e : Entry} (he : r.at? slot = some e) (hwritable : e.writable = true)
    (hx : TypedAs e.ty x b) : Keeps r b (writeSlot slot x) fun _ _ => True := by
  refine keeps_leaf rfl ⟨nofun, fun slot' src heq => ?_⟩
  obtain ⟨rfl, rfl⟩ := Instr.write.inj heq
  exact ⟨e, he, hx.2 ▸ hx.1, hwritable⟩

end Builder

open Builder

/-- The types of arguments that a signature takes without a conversion. -/
def Signature.Takes (s : Signature) (tys : List Ty) : Prop :=
  s.acceptsCount tys.length = true ∧ ∀ i ty, tys[i]? = some ty → ∃ readonly, s.param? i = some (ty, readonly)

/-- What a place is made of keeps to a registry: a slot is that of a writable entry with the type of the place,
and a container has the type of the place that it was loaded from. -/
def Place.Typed (r : Registry) (b : Builder) : Place → Prop
  | .register o => o.Typed b
  | .slot s ty => ∃ e, r.at? s = some e ∧ e.ty = ty ∧ e.writable = true
  | .component base container _ => base.Typed r b ∧ TypedAs base.ty container b

/-- A place stays what it is. -/
theorem Builder.Gains.place {p : Place} (h : Gains r b b') (hp : p.Typed r b) : p.Typed r b' := by
  induction p with
  | register o => exact h.typed hp
  | slot s ty => exact hp
  | component base container index ih => exact ⟨ih hp.1, h.typedAs hp.2⟩

namespace Generate

/-- The code of an operator on two operands. -/
theorem keeps_applyBinary (op : BinaryOp) (hx : x.Typed b) (hy : y.Typed b) (common : Ty) :
    Keeps r b (applyBinary op x y common) fun o b' => o.Typed b' := by
  refine (keeps_convert hx _).bind fun l b₁ hgains _ => ?_
  refine (keeps_convert (hgains.typed hy) _).bind fun r b₂ _ _ => ?_
  exact (keeps_binary op l r _).typed

/-- The code of an operator on one operand. -/
theorem keeps_applyUnary (op : UnaryOp) (hx : x.Typed b) (ty : Ty) :
    Keeps r b (applyUnary op x ty) fun o b' => o.Typed b' :=
  (keeps_convert hx ty).bind fun v _ _ _ => (keeps_unary op v ty).typed

/-- The code of an array. -/
theorem keeps_applyPack {items : List Operand} (hitems : ∀ o ∈ items, o.Typed b) (ty : Ty) :
    Keeps r b (applyPack items ty) fun o b' => o.Typed b' := by
  have hconvert : Keeps r b (items.mapM fun o => convert o ty.elementTy) fun _ _ => True := by
    induction items generalizing b with
    | nil => exact .pure trivial
    | cons o items ih =>
      rw [List.forall_mem_cons] at hitems
      rw [List.mapM_cons]
      refine (keeps_convert hitems.1 _).bind fun _ b₁ hgains _ => ?_
      exact (ih fun o ho => hgains.typed (hitems.2 o ho)).bind fun _ _ _ _ => .pure trivial
  exact hconvert.bind fun items' b₁ _ _ => (keeps_pack items' ty).typed

/-- The code of the position of a matrix entry. -/
theorem keeps_entryIndex (size : UInt8) (x y : Operand) :
    Keeps r b (entryIndex size x y) fun o b' => o.Typed b' := by
  refine (keeps_constant (.int32 _)).bind fun s b₁ _ _ => ?_
  refine (keeps_binary .mul x s .int32).bind fun start b₂ _ _ => ?_
  exact (keeps_binary .add start y .int32).typed

/-- The code that loads a place. -/
theorem keeps_load {p : Place} (hp : p.Typed r b) : Keeps r b (load p) (TypedAs p.ty) := by
  cases p with
  | register o => exact .pure ⟨hp, rfl⟩
  | slot s ty =>
    obtain ⟨e, he, rfl, -⟩ := hp
    exact keeps_readSlot he
  | component base container index => exact keeps_extract container index

/-- The code that stores an operand in a place of its type. -/
theorem keeps_store {p : Place} (hp : p.Typed r b) (ho : TypedAs p.ty o b) :
    Keeps r b (store p o) fun _ _ => True := by
  induction p generalizing b o with
  | register x => exact keeps_assign x o
  | slot s ty =>
    obtain ⟨e, he, rfl, hwritable⟩ := hp
    exact keeps_writeSlot he hwritable ho
  | component base container index ih =>
    obtain ⟨hbase, hcontainer⟩ := hp
    have hinsert := keeps_insert (r := r) (b := b) container index o
    cases base with
    | register x =>
      refine hinsert.bind fun _ b₁ _ _ => ?_
      split
      · exact .pure trivial
      · exact keeps_assign x container
    | slot s ty | component base' container' index' =>
      exact hinsert.bind fun _ b₁ hgains _ => ih (hgains.place hbase) (hgains.typedAs hcontainer)

/-- The code that steps a place. -/
theorem keeps_step (op : CrementOp) (post : Bool) {p : Place} (hp : p.Typed r b) :
    Keeps r b (step op post p) fun o b' => o.Typed b' := by
  have hrest {current : Operand} {old : Option Operand} {b₁ : Builder} (hp : p.Typed r b₁)
      (hold : ∀ o ∈ old, o.Typed b₁) :
      Keeps r b₁ (do
        let one ← constantAs (.int32 1) p.ty
        let new ← Builder.binary op.binary current one p.ty
        store p new
        return old.getD new) fun o b' => o.Typed b' := by
    refine (keeps_constant _).bind fun one b₂ hgains₂ _ => ?_
    refine (keeps_binary op.binary current one p.ty).bind fun new b₃ hgains₃ hnew => ?_
    refine (keeps_store (hgains₃.place (hgains₂.place hp)) hnew).bind fun _ b₄ hgains₄ _ => .pure ?_
    cases old with
    | none => exact hgains₄.typed hnew.1
    | some old => exact (hgains₂.trans (hgains₃.trans hgains₄)).typed (hold old rfl)
  refine (keeps_load hp).bind fun current b₁ hgains₁ _ => ?_
  split
  · refine (keeps_alloc p.ty).bind fun old b₂ hgains₂ hold => ?_
    refine (keeps_assign old current).bind fun _ b₃ hgains₃ _ => ?_
    refine hrest ((hgains₁.trans (hgains₂.trans hgains₃)).place hp) ?_
    rintro _ ⟨⟩
    exact hgains₃.typed hold.1
  · exact hrest (hgains₁.place hp) nofun

/-- The arguments of a call: each has the type of the parameter that receives it, if there is one. -/
theorem keeps_convertArguments (s : Signature) (i : Nat) {values : List Operand} (hvalues : ∀ v ∈ values, v.Typed b) :
    Keeps r b (convertArguments s i values) fun args b' => (∀ a ∈ args, a.Typed b') ∧
      args.length = values.length ∧ ∀ j a, args[j]? = some a → ∀ p ∈ s.param? (i + j), a.ty = p.1 := by
  induction values generalizing i b with
  | nil => exact .pure ⟨nofun, rfl, nofun⟩
  | cons v rest ih =>
    rw [List.forall_mem_cons] at hvalues
    -- the other arguments, after the first one
    have hrest (a : Operand) (b₁ : Builder) (hgains : Gains r b b₁) (ha : a.Typed b₁ ∧ ∀ p ∈ s.param? i, a.ty = p.1) :
        Keeps r b₁ (do
          let args ← convertArguments s (i + 1) rest
          return a :: args) fun args b' => (∀ a ∈ args, a.Typed b') ∧ args.length = (v :: rest).length ∧
            ∀ j a, args[j]? = some a → ∀ p ∈ s.param? (i + j), a.ty = p.1 := by
      refine (ih (i + 1) fun v hv => hgains.typed (hvalues.2 v hv)).bind ?_
      rintro args b₂ hgains₂ ⟨hargs, hlength, htypes⟩
      refine .pure ⟨List.forall_mem_cons.mpr ⟨hgains₂.typed ha.1, hargs⟩, congrArg Nat.succ hlength, fun j a' ha' => ?_⟩
      cases j with
      | zero =>
        obtain rfl := Option.some.inj ha'
        exact ha.2
      | succ j =>
        rw [Nat.add_comm j 1, ← Nat.add_assoc]
        exact htypes j a' ha'
    rw [convertArguments]
    cases hparam : s.param? i with
    | none => exact (Keeps.pure ⟨hvalues.1, by simp [hparam]⟩).bind hrest
    | some p =>
      refine ((keeps_convert hvalues.1 p.1).weaken fun a b' ha => ⟨ha.1, fun q hq => ?_⟩).bind hrest
      rw [hparam] at hq
      exact Option.some.inj hq ▸ ha.2

/-- The arguments of a call, converted to the parameters of the overload that it takes. -/
theorem keeps_resolved {group : Group} {resolution : Resolution} {values : List Operand}
    (hresolve : group.resolve (values.map Operand.ty) = .ok resolution) (hvalues : ∀ v ∈ values, v.Typed b) :
    Keeps r b (convertArguments resolution.function.signature 0 values) fun args b' =>
      (∀ a ∈ args, a.Typed b') ∧ resolution.function.signature.Takes (args.map Operand.ty) := by
  obtain ⟨-, tier, hfits⟩ := Group.resolve_eq_ok hresolve
  obtain ⟨hcount, haccepts⟩ := Bool.and_eq_true_iff.mp hfits
  refine (keeps_convertArguments _ 0 hvalues).weaken fun args b' h => ?_
  obtain ⟨hargs, hlength, htypes⟩ := h
  refine ⟨hargs, by simpa [hlength] using hcount, fun i ty hi => ?_⟩
  rw [List.getElem?_map] at hi
  obtain ⟨a, ha, rfl⟩ := Option.map_eq_some_iff.mp hi
  -- the overload accepts the value at this position, so it has a parameter there
  have hlt : i < values.length := hlength ▸ (List.getElem?_eq_some_iff.mp ha).1
  have haccept : resolution.function.signature.accepts tier i values[i].ty = true :=
    List.all_eq_true.mp haccepts (values[i].ty, i) (List.mem_zipIdx_iff_getElem?.mpr (by simp [hlt]))
  unfold Signature.accepts at haccept
  cases hparam : resolution.function.signature.param? i with
  | none => simp [hparam] at haccept
  | some p =>
    have hty : a.ty = p.1 := htypes i a ha p (by rw [Nat.zero_add, hparam]; rfl)
    exact ⟨p.2, by rw [hty]⟩

end Generate

/-! ## Inline functions -/

/-- The code of the inline functions of a library keeps to a registry: given operands of the types that the
signature takes, all that is built is code in the open block, and a result is an operand of its register's type. -/
def Library.KeepsTo (l : Library) (r : Registry) : Prop :=
  ∀ name g, l.get? name = some g → ∀ f ∈ g.functions, ∀ generator, f.implementation = .emitted generator →
    ∀ custom args b, (∀ a ∈ args, a.Typed b) → f.signature.Takes (args.map Operand.ty) →
      Keeps r b (generator custom args).run fun result b' => ∀ o ∈ result, o.Typed b'

/-- Without a variable number of parameters, a signature takes the types of its parameters only. -/
theorem Signature.Takes.eq_params {s : Signature} {tys : List Ty} (h : s.Takes tys) (hfixed : s.variadic = false) :
    tys = s.params := by
  have hlength : tys.length = s.params.length := by simpa [acceptsCount, hfixed] using h.1
  apply List.ext_getElem?
  intro i
  cases hi : tys[i]? with
  | none =>
    rw [List.getElem?_eq_none_iff] at hi
    exact (List.getElem?_eq_none (hlength ▸ hi)).symm
  | some ty =>
    obtain ⟨readonly, hparam⟩ := h.2 i ty hi
    rw [param?, hfixed] at hparam
    obtain ⟨ty', hty', heq⟩ := Option.map_eq_some_iff.mp hparam
    rw [← (Prod.mk.inj heq).1]
    exact hty'.symm

/-- The inline functions of the standard library name no slot, so they keep to every registry. -/
theorem Library.standard_keepsTo (r : Registry) : Library.KeepsTo .standard r := by
  intro name g hget f hf generator hgenerator custom args b hargs htakes
  have hsound : f.Sound ⟨fun _ _ => False, False⟩ := standard_sound hget f hf
  have himplementation := hsound.implementation
  rw [hgenerator] at himplementation
  obtain ⟨code, W, hadds, -, hcode, hresult⟩ := himplementation custom args b Set.univ
    (fun a ha => ⟨hargs a ha, Set.mem_univ _, nofun⟩) (htakes.eq_params hsound.fixed)
  refine ⟨⟨code, hadds, fun i hi => ?_⟩, fun o ho => (hresult o ho).type⟩
  -- code that is sound without slots neither reads nor writes one
  obtain ⟨tys, res, -, -, hrule⟩ := hcode.fits i hi
  constructor
  · rintro dst slot rfl
    simp [Instr.Rule] at hrule
  · rintro slot src rfl
    simp [Instr.Rule] at hrule

end Elementwise
