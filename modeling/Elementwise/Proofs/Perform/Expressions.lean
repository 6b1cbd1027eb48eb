import Elementwise.Proofs.Generate.Jumps
import Elementwise.Proofs.Perform.Actions

/-!
# Generated expressions perform what they mean

The code of an expression, run where the registers of locals hold what their cells hold, performs the
expression: operands are read when they are used, after the code of their siblings ran.
-/

namespace Elementwise

open Builder

/-- Names stand for cells whose registers are the operands in scope. -/
def Names.Agrees (names : Names) (L : Layout) (b : Builder) (scopes : Scopes) : Prop :=
  ∀ name o, scopes.find? name = some o →
    ∃ i, names.find? name = some (i, o.ty) ∧ L[i]? = some o ∧ o.reg < b.regs.size

theorem Names.Agrees.mono {names : Names} {L : Layout} {b b' : Builder} {scopes : Scopes} (h : names.Agrees L b scopes)
    (hle : b.regs.size ≤ b'.regs.size) : names.Agrees L b' scopes := by
  intro name o hfind
  obtain ⟨i, hname, hcell, hbound⟩ := h name o hfind
  exact ⟨i, hname, hcell, Nat.lt_of_lt_of_le hbound hle⟩

/-- No function of the standard library has a name that asks for a value of the host. -/
theorem Library.externalTy?_of_standard {name : String} {g : Group} (h : standard.get? name = some g) :
    Tree.externalTy? name = none := by
  obtain ⟨hmem, rfl⟩ := mem_standardGroups h
  have hall : ∀ g ∈ standardGroups, Tree.externalTy? g.name = none := by
    unfold standardGroups
    simp [nativeGroup, inlineGroup, voxelGroup, Tree.externalTy?]
  exact hall g hmem

/-- The world that code is generated for. -/
def Context.world (ctx : Context) : World := ⟨ctx.registry, ctx.custom⟩

namespace Generate

variable {ctx : Context} {scopes : Scopes} {names : Names} {types : Array Ty} {fuel n : Nat} {L : Layout}
  {b b' : Builder} {m : Machine} {s : Store}

variable {b₂ : Builder} {lo : Nat} {site : Site} {u : Unit}

/-- The arguments of a call are converted one by one. -/
theorem length_convertArguments (signature : Signature) (i : Nat) (values : List Operand) (b : Builder) :
    (convertArguments signature i values b).1.length = values.length := by
  induction values generalizing i b with
  | nil => rfl
  | cons v values ih =>
    rw [convertArguments]
    cases signature.param? i with
    | none => exact congrArg (· + 1) (ih (i + 1) _)
    | some param => exact congrArg (· + 1) (ih (i + 1) _)

namespace Resolved

variable {name : String} {values args : List Operand} {f : Function}

/-- The conversions only add to the open block. -/
theorem grows (h : Resolved ctx name values f args b b') : b.Grows b' := by
  obtain ⟨group, resolution, -, -, -, -, hbuild⟩ := h
  exact Grows.of_eq hbuild

section

variable (hstd : ctx.library = .standard) (h : Resolved ctx name values f args b b')

include hstd h

/-- A call of a function asks for no value of the host. -/
theorem lookup?_eq_none (ts : List Term) : Evaluate.lookup? name ts = none := by
  obtain ⟨group, resolution, hget, -⟩ := h
  rw [hstd] at hget
  have hname := Library.externalTy?_of_standard hget
  unfold Evaluate.lookup?
  split
  · simp [hname]
  · rfl

/-- A call means what the overload does that it takes. -/
theorem call_eq (element : ElementState) {ds : List Datum} (htypes : ds.map Datum.ty = values.map Operand.ty) :
    Evaluate.call element name ds =
      match f.implementation with
      | .native body => Eval.native name body (Evaluate.convertArguments f.signature 0 ds) f.signature.ret
      | .emitted _ => Eval.ofOption (Builtin.ofName? name) >>= fun builtin =>
        builtin.apply element (Evaluate.convertArguments f.signature 0 ds) := by
  obtain ⟨group, resolution, hget, -, hresolve, rfl, -⟩ := h
  rw [hstd] at hget
  cases himplementation : resolution.function.implementation <;>
    simp only [Evaluate.call, Library.resolve, hget, htypes, hresolve, himplementation]

/-- An inline function of the standard library is a builtin that gets as many arguments as it takes. -/
theorem builtin {generator : Generator} (hgenerator : f.implementation = .emitted generator) :
    ∃ builtin, Builtin.ofName? name = some builtin ∧ generator = builtin.generator ∧ args.length = builtin.arity ∧
      f.signature.ret ≠ .void := by
  obtain ⟨group, resolution, hget, -, hresolve, rfl, hbuild⟩ := h
  rw [hstd] at hget
  obtain ⟨hmem, tier, hfits⟩ := Group.resolve_eq_ok hresolve
  obtain ⟨hgroup, rfl⟩ := Library.mem_standardGroups hget
  obtain ⟨builtin, hname, hgen, harity⟩ := Library.standardGroups_builtins group hgroup _ hmem generator hgenerator
  have hsound : resolution.function.Sound ⟨fun _ _ => False, True⟩ := Library.standard_sound hget _ hmem
  have hcount := (Bool.and_eq_true_iff.mp hfits).1
  have hlength := length_convertArguments resolution.function.signature 0 values b
  rw [hbuild] at hlength
  refine ⟨builtin, hname, hgen, ?_, hsound.value generator hgenerator⟩
  rw [← harity, hlength]
  simpa [Signature.acceptsCount, hsound.fixed] using hcount

end

/-- The operands of a call hold its arguments, converted to the parameters that receive them. -/
theorem computes (h : Resolved ctx name values f args b b') {ds : List Datum} (hvalues : AllHold values b ds m) :
    Computes types fuel b.regs.size b b' m (pure (Evaluate.convertArguments f.signature 0 ds)) (AllHold args b') := by
  obtain ⟨group, resolution, -, -, -, rfl, hbuild⟩ := h
  exact (does_convertArguments hvalues _ 0).computes hbuild

end Resolved

theorem Emits.grows (hstd : ctx.library = .standard) {part : Part} (h : Emits ctx scopes part b b') : b.Grows b' :=
  (h.places (hstd ▸ Library.standard_placing) : b.Places false b').grows

namespace Resolved

variable {name : String} {values args : List Operand} {f : Function} {o : Operand} {b₁ : Builder} {hs : List Referent}
  (h : Resolved ctx name values f args b b₁) (hvalues : AllStand L n b values hs m) (hn : n ≤ b.regs.size)
  (hmirrors : Mirrors L s m) (hclear : L.Clear b.regs.size b'.regs.size)

include h hvalues hn hmirrors hclear

/-- A call performs what its code computes from the converted operands. -/
theorem performs (hg : b₁.Grows b') (hfresh : b₁.regs.size ≤ o.reg)
    (hinvoke : ∀ m₁ ds, ds.map Datum.ty = values.map Operand.ty →
      AllHold args b₁ (Evaluate.convertArguments f.signature 0 ds) m₁ →
        Computes types fuel b₁.regs.size b₁ b' m₁ (Evaluate.call m₁.state name ds) (o.Holds b')) :
    Performs types fuel L b.regs.size b b' m s (Perform.call name hs) (Stands L n b' o) := by
  have hholds := hvalues.holds hmirrors
  have hcomputes : Computes types fuel b.regs.size b b' m (Evaluate.call m.state name (hs.map s.read)) (o.Holds b') := by
    refine .bind (y := fun _ => Evaluate.call m.state name (hs.map s.read)) h.grows hg (h.computes hholds).result
      fun ds m₁ hlater hargs => ?_
    obtain ⟨rfl, hargs⟩ := hargs
    rw [← hlater.state]
    exact hinvoke m₁ _ hholds.types_eq hargs
  have hperforms : Performs types fuel L b.regs.size b b' m s
      (Act.compute fun element => Evaluate.call element name (hs.map s.read)) (o.Holds b') :=
    .compute hmirrors hclear hcomputes
  exact (hperforms.map (f := Referent.datum) fun d m' hd =>
    .datum (Nat.le_trans hn (Nat.le_trans h.grows.size_le hfresh)) hd).congr rfl

/-- A call of a native function. -/
theorem performs_native (hstd : ctx.library = .standard) {body : NativeBody}
    (hbody : f.implementation = .native body)
    (hbuild : Builder.callNative name body args f.signature.ret b₁ = (o, b')) :
    Performs types fuel L b.regs.size b b' m s (Perform.call name hs) (Stands L n b' o) := by
  refine h.performs hvalues hn hmirrors hclear (Grows.of_eq hbuild) (Fresh.of_eq hbuild) fun m₁ ds htypes hargs => ?_
  rw [h.call_eq hstd m₁.state htypes, hbody]
  exact (does_callNative hargs name body f.signature.ret).computes hbuild

/-- A call of an inline function. -/
theorem performs_inline (hstd : ctx.library = .standard) {generator : Generator}
    (hgenerator : f.implementation = .emitted generator)
    (hbuild : (generator ctx.custom args).run b₁ = (some o, b')) :
    Performs types fuel L b.regs.size b b' m s (Perform.call name hs) (Stands L n b' o) := by
  obtain ⟨builtin, hname, rfl, harity, -⟩ := h.builtin hstd hgenerator
  refine h.performs hvalues hn hmirrors hclear (Grows.of_eq hbuild)
    (builtin.fresh_generator ctx.custom args b₁ o b' hbuild) fun m₁ ds htypes hargs => ?_
  rw [h.call_eq hstd m₁.state htypes, hgenerator, hname]
  exact builtin.does_generator ctx.custom hargs harity o b' hbuild

end Resolved

/-- The datum of a value of the host. -/
theorem HostValue.host {custom : CustomData} {name : String} {ty : Ty} {v : Value} (h : HostValue custom name ty v)
    (registry : Registry) : World.host ⟨registry, custom⟩ name ty = .ofValue v := by
  rcases h with ⟨hnone, rfl⟩ | ⟨hsome, -⟩
  · rw [World.host, hnone, Option.getD_none]
  · rw [World.host, hsome, Option.getD_some]

theorem pass_lazy : Perform.pass .lazy = pure := rfl

/-- What the code of a part does. -/
def Part.Performed (types : Array Ty) (fuel : Nat) (L : Layout) (w : World) (names : Names) (b b' : Builder) (m : Machine)
    (s : Store) : Part → Prop
  | .value t o => Performs types fuel L b.regs.size b b' m s (Perform.referent .lazy w names t) (Stands L b.regs.size b' o)
  | .values ts os =>
    Performs types fuel L b.regs.size b b' m s (Perform.referents .lazy w names ts) (AllStand L b.regs.size b' os)
  | .place t p => Performs types fuel L b.regs.size b b' m s (Perform.place .lazy w names t)
    (Sited L b.regs.size b'.regs.size b' p)
  | .index _ t o => Performs types fuel L b.regs.size b b' m s (Perform.referent .lazy w names t >>= Perform.asIndex)
    (Stands L b.regs.size b' o)
  | .position container row column o => Performs types fuel L b.regs.size b b' m s
    (Perform.position pure container.ty (Perform.referent .lazy w names row) (column.map (Perform.referent .lazy w names)))
    (Stands L b.regs.size b' o)

/-- A logical operator: the right operand is only performed if the left one does not decide. -/
theorem performs_logical {op : BinaryOp} {l lc result r rc : Operand} {x y : Act Referent} {body : List Instr}
    {b₁ b₃ b₄ b₅ b₆ b₇ b₈ b₉ b₁₀ : Builder} (hl : Truth l lc b₂ b₃) (hresult : Builder.alloc .bool b₃ = (result, b₄))
    (hassign : Builder.assign result lc b₄ = (u, b₅)) (hr : Truth r rc b₆ b₇)
    (hreassign : Builder.assign result rc b₇ = (u, b₈)) (hend : Builder.endBlock b₈ = (body, b₉))
    (hbranch : Builder.emit (.branch lc.reg (if op = .and then body else []) (if op = .and then [] else body)) b₉
      = (u, b₁₀))
    (hg₁ : b₁.Grows b₂) (hg₅ : (beginBlock b₅).2.Grows b₆) (hclear : L.Clear b₁.regs.size b₁₀.regs.size)
    (hleft : Performs types fuel L b₁.regs.size b₁ b₂ m s x (Stands L b₁.regs.size b₂ l))
    (hright : ∀ s m, Mirrors L s m →
      Performs types fuel L b₅.regs.size (beginBlock b₅).2 b₆ m s y (Stands L b₅.regs.size b₆ r)) :
    Performs types fuel L b₁.regs.size b₁ b₁₀ m s (do
      let l ← x
      let l ← Perform.truth l
      if l.value.truthy = decide (op = .and) then do
        let r ← y
        let r ← Perform.truth r
        return .datum r
      else return .datum l) (Stands L b₁.regs.size b₁₀ result) := by
  have hg₂ : b₂.Grows b₃ := hl.grows
  have hg₃ : b₃.Grows b₅ := (Grows.of_eq hresult).trans (Grows.of_eq hassign)
  have hg₆ : b₆.Grows b₇ := hr.grows
  have hg₇ : b₇.Grows b₈ := Grows.of_eq hreassign
  obtain ⟨hadds, hregs⟩ := ((hg₅.trans hg₆).trans hg₇).closed hend hbranch
  have hg₈ : b₅.Grows b₁₀ := ⟨_, hadds⟩
  have hreg : result = ⟨b₃.regs.size, .bool⟩ := (Prod.mk.inj hresult).1.symm
  have hle₁₃ := (hg₁.trans hg₂).size_le
  have hle₃₅ := hg₃.size_le
  have hle₅₆ : b₅.regs.size ≤ b₆.regs.size := hg₅.size_le
  have hle₇₁₀ : b₇.regs.size ≤ b₁₀.regs.size := hregs ▸ hg₇.size_le
  have hle₆₇ := hg₆.size_le
  refine .bind hg₁ (hg₂.trans (hg₃.trans hg₈)) hleft fun h s₁ m₁ _ hmirrors₁ hl' => ?_
  refine .bind hg₂ (hg₃.trans hg₈) (hl.performs hl' hmirrors₁ (hclear.mono hg₁.size_le (hg₃.trans hg₈).size_le))
    fun d s₂ m₂ _ hmirrors₂ hd => ?_
  refine .after hg₃ hg₈ (Nat.le_refl _) hmirrors₂ (hclear.mono hle₁₃ hg₈.size_le)
    (computes_copy hresult hassign hd.1 hd.2) fun m₃ hlater hmirrors₃ hcopy => ?_
  have hfresh : b₁.regs.size ≤ result.reg := by rw [hreg]; exact hle₁₃
  have hne : ∀ c ∈ L, c.reg ≠ result.reg := hclear.ne hfresh (Nat.lt_of_lt_of_le hcopy.bound hg₈.size_le)
  refine .branch ((hlater.regs _ (.inl hd.1.bound)).trans hd.1.value) ((hg₅.trans hg₆).trans hg₇) hend hbranch ?_ hmirrors₃
    (.datum hfresh ⟨hcopy.value, hcopy.type, Nat.lt_of_lt_of_le hcopy.bound hg₈.size_le⟩)
  -- the right operand leaves its truth value in the register that holds the left one
  refine .bindWithin hg₅ (hg₆.trans hg₇) hle₃₅ (Nat.le_refl _) (hright s₂ m₃ hmirrors₃)
    fun h' s₄ m₄ _ _ hmirrors₄ hr' => ?_
  refine .bindWithin hg₆ hg₇ (by omega) (Nat.le_refl _) (hr.performs hr' hmirrors₄ (hclear.mono (by omega) hle₇₁₀))
    fun d' s₅ m₅ _ _ hmirrors₅ hd' => ?_
  have hbound : result.reg < b₇.regs.size := Nat.lt_of_lt_of_le hcopy.bound (by omega)
  refine (performs_overwrite hreassign (by rw [hreg]) hne hbound hd'.1.value (hd'.2.trans (by rw [hreg])) hmirrors₅).weaken
    (Nat.le_refl _) fun _ m' _ ho => (ho.mono hle₁₃).congr hregs

/-- An assignment, after the code of its target and of its value. -/
theorem performs_assign {p : Place} {v o : Operand} {h : Referent} {b₁ : Builder} (hcoerce : Coerced v p.ty o b b₁)
    (hstore : store p o b₁ = (u, b₂)) (hp : Sited L lo n b p site m) (hv : Stands L n b v h m) (hlo : lo ≤ n)
    (hn : n ≤ b.regs.size) (hmirrors : Mirrors L s m) (hdistinct : L.Distinct) (hclear : L.Clear lo b₂.regs.size) :
    Performs types fuel L lo b b₂ m s (Perform.assign .lazy none site h) (Stands L lo b₂ o) := by
  have hg₁ := hcoerce.grows
  have hg₂ : b₁.Grows b₂ := Grows.of_eq hstore
  have hlob : lo ≤ b.regs.size := Nat.le_trans hlo hn
  rw [Perform.assign, pure_bind, hp.type]
  refine .bindWithin hg₁ hg₂ hlob (Nat.le_refl _) (hcoerce.performs hn hmirrors (hclear.mono hlob hg₂.size_le) hv)
    fun h' s₁ m₁ _ hkept hmirrors₁ ho => ?_
  have hp₁ : Sited L lo n b₁ p site m₁ := hp.later hclear (hg₁.trans hg₂).size_le hkept hg₁
  refine (performs_store hstore hp₁ ho hmirrors₁ hdistinct
    (hclear.below (Nat.le_trans hn (hg₁.trans hg₂).size_le))).map (f := fun _ => h') fun _ m' hm' => ?_
  refine (ho.keep hg₂ fun hfresh hbound => hm' _ hfresh ?_).mono hlo
  exact hclear.ne (Nat.le_trans hlo hfresh) (Nat.lt_of_lt_of_le hbound hg₂.size_le)

/-- A compound assignment, after the code of its target and of its value. -/
theorem performs_compound {p : Place} {op : BinaryOp} {v current x o : Operand} {h : Referent} {b₁ b₃ b₄ : Builder}
    (hload : load p b = (current, b₁)) (hbuild : Operated op current v x b₁ b₂) (hcoerce : Coerced x p.ty o b₂ b₃)
    (hstore : store p o b₃ = (u, b₄)) (hp : Sited L lo n b p site m) (hv : Stands L n b v h m) (hlo : lo ≤ n)
    (hn : n ≤ b.regs.size) (hmirrors : Mirrors L s m) (hdistinct : L.Distinct) (hclear : L.Clear lo b₄.regs.size) :
    Performs types fuel L lo b b₄ m s (Perform.assign .lazy (some op) site h) (Stands L lo b₄ o) := by
  have hg₁ : b.Grows b₁ := Grows.of_eq hload
  have hg₂ := hbuild.grows
  have hg₄ : b₂.Grows b₄ := hcoerce.grows.trans (Grows.of_eq hstore)
  have hlob : lo ≤ b.regs.size := Nat.le_trans hlo hn
  refine .bindWithin hg₁ (hg₂.trans hg₄) hlob (Nat.le_refl _)
    (performs_load hlob hmirrors (hclear.mono hlob (hg₂.trans hg₄).size_le) hload hp)
    fun hcurrent s₁ m₁ _ hkept₁ hmirrors₁ hc => ?_
  have hle := (hg₁.trans (hg₂.trans hg₄)).size_le
  have hv₁ := hv.later (hclear.above hlo) hle hkept₁ hg₁
  have hp₁ := hp.later hclear hle hkept₁ hg₁
  have hn₁ := Nat.le_trans hn hg₁.size_le
  refine .bindWithin hg₂ hg₄ (Nat.le_trans hlo hn₁) (Nat.le_refl _)
    (hbuild.performs hn₁ hmirrors₁ (hclear.mono (Nat.le_trans hlo hn₁) hg₄.size_le) hc hv₁)
    fun hx s₂ m₂ _ hkept₂ hmirrors₂ hx' => ?_
  exact performs_assign hcoerce hstore (hp₁.later hclear (hg₂.trans hg₄).size_le hkept₂ hg₂) hx' hlo
    (Nat.le_trans hn₁ hg₂.size_le) hmirrors₂ hdistinct hclear

/-- Only an array has positions. -/
theorem Emits.isArray {container o : Operand} {row : Term} {column : Option Term}
    (h : Emits ctx scopes (.position container row column o) b b') : container.ty.isArray = true := by
  cases h with
  | vectorPosition hty | matrixPosition hty | entryPosition hty => rw [hty]; rfl

theorem isArray_elementTy (ty : Ty) : ty.elementTy.isArray = false := by cases ty <;> rfl

/-- A component as a target: its base is loaded before its position is performed. -/
theorem performs_component {base : Place} {container i : Operand} {f : Ty → Act Referent} {b₁ : Builder}
    (hload : load base b = (container, b₁)) (hp : Sited L lo n b base site m) (hg : b₁.Grows b₂)
    (harray : container.ty.isArray = true) (hlo : lo ≤ b.regs.size) (hmirrors : Mirrors L s m)
    (hclear : L.Clear lo b₂.regs.size)
    (hposition : ∀ m, Mirrors L s m →
      Performs types fuel L b₁.regs.size b₁ b₂ m s (f container.ty) (Stands L b₁.regs.size b₂ i)) :
    Performs types fuel L lo b b₂ m s
      (match site with
        | .component _ _ _ => Act.stuck
        | .whole base => do
          let container ← Act.look fun s => s.load base
          let i ← f container.ty
          return .component base container i)
      (Sited L lo b₂.regs.size b₂ (.component base container i)) := by
  have hty := load_ty hload
  cases hp with
  | @cell j o _ hcell hbound =>
    obtain ⟨rfl, rfl⟩ := Prod.mk.inj hload
    refine (Performs.map (f := fun hi => Site.component (.cell j o.ty) (.cell j o.ty) hi)
      ((hposition m hmirrors).weaken hlo fun _ _ _ hi => hi) fun hi m' hi' => ?_).congr rfl
    exact .cellComponent hcell (Nat.lt_of_lt_of_le hbound hg.size_le) (hi'.mono hlo)
  | @slot slot ty _ =>
    have hg₁ : b.Grows b₁ := Grows.of_eq hload
    have hread : Builder.readSlot slot ty b = (container, b₁) := hload
    have hfresh : lo ≤ container.reg := Nat.le_trans hlo (Fresh.of_eq hread)
    refine .after hg₁ hg hlo hmirrors (hclear.mono hlo hg.size_le) ((does_readSlot slot ty).computes hread)
      fun m₁ _ hmirrors₁ hcontainer => ?_
    rw [hmirrors.element] at hcontainer
    obtain rfl : container.ty = ty := hty
    have hwaits : Stands L lo b₁ container (.datum (s.slot slot container.ty)) m₁ := .datum hfresh hcontainer
    have hplaced : Performs types fuel L lo b₁ b₂ m₁ s (f container.ty) fun hi m' =>
        Sited L lo b₂.regs.size b₂ (.component (.slot slot container.ty) container i)
          (.component (.slot slot container.ty) (.datum (s.slot slot container.ty)) hi) m' := by
      refine (hposition m₁ hmirrors₁).weaken (Nat.le_trans hlo hg₁.size_le) fun hi m' hkept hi' => ?_
      cases hwaits.later hclear hg.size_le hkept hg with
      | datum _ hholds =>
        exact .slotComponent hfresh (Nat.lt_of_lt_of_le hcontainer.bound hg.size_le) hholds
          (hi'.mono (Nat.le_trans hlo hg₁.size_le))
    exact (hplaced.map fun _ _ h => h).congr rfl
  | cellComponent | slotComponent =>
    rw [hty, Place.ty, isArray_elementTy] at harray
    cases harray

/-- The code of an expression performs it. -/
theorem Emits.performs (hstd : ctx.library = .standard) (hdistinct : L.Distinct) {part : Part}
    (h : Emits ctx scopes part b b') (hclear : L.Clear b.regs.size b'.regs.size) (hagrees : names.Agrees L b scopes)
    (hmirrors : Mirrors L s m) : part.Performed types fuel L ctx.world names b b' m s := by
  induction h generalizing m s with
  | literal hbuild =>
    exact performs_known (Nat.le_refl _) hmirrors hclear hbuild ((does_constant _).computes hbuild) rfl
  | localName hfind =>
    obtain ⟨i, hname, hcell, hbound⟩ := hagrees _ _ hfind
    refine (Performs.pure hmirrors (.cell hcell hbound)).congr ?_
    rw [Perform.referent, Perform.referentNode, Perform.local?, hname]
    rfl
  | field hentry hbuild =>
    refine performs_readSlot (Nat.le_refl _) hmirrors hclear hbuild ?_
    rw [Perform.referent, Perform.referentNode, Perform.entry, show ctx.world.registry = ctx.registry from rfl, hentry]
    rfl
  | external hvalue hbuild =>
    refine performs_known (Nat.le_refl _) hmirrors hclear hbuild ((does_constant _).computes hbuild) ?_
    rw [Perform.referent, Perform.referentNode, Context.world, hvalue.host]
    rfl
  | @logical id op left right l lc result r rc u b₁ b₂ b₃ b₄ b₅ b₆ b₇ b₈ body b₉ b₁₀ hop hleft hl hresult hassign hright hr
      hreassign hend hbranch ihleft ihright =>
    have hg₁ := hleft.grows hstd
    have hg₂ : b₂.Grows b₅ := (hl.grows.trans (Grows.of_eq hresult)).trans (Grows.of_eq hassign)
    have hg₅ := hright.grows hstd
    have hle : b₆.regs.size ≤ b₁₀.regs.size := by
      have hregs := (((hg₅.trans hr.grows).trans (Grows.of_eq hreassign)).closed hend hbranch).2
      exact hregs ▸ (hr.grows.trans (Grows.of_eq hreassign)).size_le
    have hle₅₆ : b₅.regs.size ≤ b₆.regs.size := hg₅.size_le
    simp only [Part.Performed, Perform.referent, Perform.referentNode, if_pos hop] at ihleft ihright ⊢
    refine performs_logical hl hresult hassign hr hreassign hend hbranch hg₁ hg₅ hclear
      (ihleft (hclear.below ?_) hagrees hmirrors)
      fun s m hmirrors => ihright (hclear.mono (hg₁.trans hg₂).size_le hle) (hagrees.mono (hg₁.trans hg₂).size_le) hmirrors
    exact Nat.le_trans hg₂.size_le (Nat.le_trans hle₅₆ hle)
  | binary hop hleft hright hbuild ihleft ihright =>
    have hg₁ := hleft.grows hstd
    have hg₂ := hright.grows hstd
    have hg₃ := hbuild.grows
    simp only [Part.Performed, Perform.referent, Perform.referentNode, if_neg hop, pass_lazy, pure_bind] at ihleft ihright ⊢
    refine .bind hg₁ (hg₂.trans hg₃) (ihleft (hclear.below (hg₂.trans hg₃).size_le) hagrees hmirrors)
      fun hl s₁ m₁ _ hmirrors₁ hl' => ?_
    refine .bind hg₂ hg₃ (ihright (hclear.mono hg₁.size_le hg₃.size_le) (hagrees.mono hg₁.size_le) hmirrors₁)
      fun hr s₂ m₂ hkept hmirrors₂ hr' => ?_
    exact hbuild.performs (hg₁.trans hg₂).size_le hmirrors₂ (hclear.above (hg₁.trans hg₂).size_le)
      (hl'.later hclear (hg₂.trans hg₃).size_le hkept hg₂) hr'
  | @unary id op operand v ty o b₁ b₂ b₃ hoperand hty hbuild ih =>
    have hg₁ := hoperand.grows hstd
    have hg₂ : b₂.Grows b₃ := Grows.of_eq hbuild
    refine .bind hg₁ hg₂ (ih (hclear.below hg₂.size_le) hagrees hmirrors) fun h s₁ m₁ _ hmirrors₁ hv => ?_
    have hholds := hv.holds hmirrors₁
    refine performs_known hg₁.size_le hmirrors₁ (hclear.above hg₁.size_le) hbuild
      ((does_applyUnary op ty hholds).computes hbuild) ?_
    have hunary : (s₁.read h).unary? op = some ⟨ty, Value.unary op ((s₁.read h).convert ty).value⟩ := by
      rw [Datum.unary?, hholds.type, hty, Option.map_some]
    change (Act.ofOption ((s₁.read h).unary? op) >>= fun d => pure (Referent.datum d)) s₁ = _
    rw [hunary]
    rfl
  | @crement id op post target p o b₁ b₂ b₃ htarget _ _ hbuild ih =>
    have hg₁ := htarget.grows hstd
    have hg₂ : b₂.Grows b₃ := Grows.of_eq hbuild
    refine .bindWithin hg₁ hg₂ (Nat.le_refl _) (Nat.le_refl _)
      (ih (hclear.below hg₂.size_le) hagrees hmirrors) fun site s₁ m₁ _ _ hmirrors₁ hp => ?_
    exact performs_step hbuild hp hg₁.size_le (Nat.le_refl _) hmirrors₁ hdistinct hclear
  | @assign id target value p v o u b₁ b₂ b₃ b₄ b₅ htarget hvalue hcoerce hstore ihtarget ihvalue =>
    have hg₁ := htarget.grows hstd
    have hg₂ := hvalue.grows hstd
    have hg₃ : b₃.Grows b₅ := hcoerce.grows.trans (Grows.of_eq hstore)
    refine .bindWithin hg₁ (hg₂.trans hg₃) (Nat.le_refl _) (Nat.le_refl _)
      (ihtarget (hclear.below (hg₂.trans hg₃).size_le) hagrees hmirrors)
      fun site s₁ m₁ _ _ hmirrors₁ hp => ?_
    refine .bindWithin hg₂ hg₃ hg₁.size_le (Nat.le_refl _)
      (ihvalue (hclear.mono hg₁.size_le hg₃.size_le) (hagrees.mono hg₁.size_le) hmirrors₁)
      fun h s₂ m₂ _ hkept hmirrors₂ hv => ?_
    exact performs_assign hcoerce hstore (hp.later hclear (hg₂.trans hg₃).size_le hkept hg₂) hv hg₁.size_le
      hg₂.size_le hmirrors₂ hdistinct hclear
  | @compound id target value op p v current w o u b₁ b₂ b₃ b₄ b₅ b₆ b₇ htarget hvalue hload hbuild hcoerce hstore
      ihtarget ihvalue =>
    have hg₁ := htarget.grows hstd
    have hg₂ := hvalue.grows hstd
    have hg₃ : b₃.Grows b₇ :=
      (((Grows.of_eq hload).trans hbuild.grows).trans hcoerce.grows).trans (Grows.of_eq hstore)
    refine .bindWithin hg₁ (hg₂.trans hg₃) (Nat.le_refl _) (Nat.le_refl _)
      (ihtarget (hclear.below (hg₂.trans hg₃).size_le) hagrees hmirrors)
      fun site s₁ m₁ _ _ hmirrors₁ hp => ?_
    refine .bindWithin hg₂ hg₃ hg₁.size_le (Nat.le_refl _)
      (ihvalue (hclear.mono hg₁.size_le hg₃.size_le) (hagrees.mono hg₁.size_le) hmirrors₁)
      fun h s₂ m₂ _ hkept hmirrors₂ hv => ?_
    exact performs_compound hload hbuild hcoerce hstore
      (hp.later hclear (hg₂.trans hg₃).size_le hkept hg₂) hv hg₁.size_le hg₂.size_le hmirrors₂ hdistinct
      hclear
  | @cast id ty operand v o b₁ b₂ b₃ hoperand hcoerce ih =>
    have hg₁ := hoperand.grows hstd
    have hg₂ := hcoerce.grows
    refine .bind hg₁ hg₂ (ih (hclear.below hg₂.size_le) hagrees hmirrors) fun h s₁ m₁ _ hmirrors₁ hv => ?_
    exact hcoerce.performs hg₁.size_le hmirrors₁ (hclear.above hg₁.size_le) hv
  | @native id name args values function body args' o b₁ b₂ b₃ b₄ hargs hresolve hbody hbuild ih =>
    have hg₁ := hargs.grows hstd
    have hg₂ : b₂.Grows b₄ := hresolve.grows.trans (Grows.of_eq hbuild)
    simp only [Part.Performed, Perform.referent, Perform.referentNode, hresolve.lookup?_eq_none hstd] at ih ⊢
    refine .bind hg₁ hg₂ (ih (hclear.below hg₂.size_le) hagrees hmirrors) fun hs s₁ m₁ _ hmirrors₁ hv => ?_
    exact hresolve.performs_native hv hg₁.size_le hmirrors₁ (hclear.above hg₁.size_le) hstd hbody hbuild
  | @inline id name args values function generator args' o b₁ b₂ b₃ b₄ hargs hresolve hgenerator hbuild hret ih =>
    have hg₁ := hargs.grows hstd
    have hg₂ : b₂.Grows b₄ := by
      obtain ⟨builtin, -, rfl, -⟩ := hresolve.builtin hstd hgenerator
      exact hresolve.grows.trans (Grows.of_eq hbuild)
    simp only [Part.Performed, Perform.referent, Perform.referentNode, hresolve.lookup?_eq_none hstd] at ih ⊢
    refine .bind hg₁ hg₂ (ih (hclear.below hg₂.size_le) hagrees hmirrors) fun hs s₁ m₁ _ hmirrors₁ hv => ?_
    exact hresolve.performs_inline hv hg₁.size_le hmirrors₁ (hclear.above hg₁.size_le) hstd hgenerator hbuild
  | inlineVoid _ hresolve hgenerator _ hret =>
    obtain ⟨builtin, -, -, -, hvoid⟩ := hresolve.builtin hstd hgenerator
    exact absurd hret hvoid
  | @pack id items values ty o b₁ b₂ b₃ hitems hty hbuild ih =>
    have hg₁ := hitems.grows hstd
    have hg₂ : b₂.Grows b₃ := Grows.of_eq hbuild
    refine .bind hg₁ hg₂ (ih (hclear.below hg₂.size_le) hagrees hmirrors) fun hs s₁ m₁ _ hmirrors₁ hv => ?_
    have hholds := hv.holds hmirrors₁
    refine performs_known hg₁.size_le hmirrors₁ (hclear.above hg₁.size_le) hbuild
      ((does_applyPack hholds ty).computes hbuild) ?_
    change (Act.ofOption (Datum.pack? (hs.map s₁.read)) >>= fun d => pure (Referent.datum d)) s₁ = _
    rw [Datum.pack?, hholds.types_eq, hty]
    rfl
  | @unpack id array row column container i o b₁ b₂ b₃ b₄ harray hindex hbuild iharray ihindex =>
    have hg₁ := harray.grows hstd
    have hg₂ := hindex.grows hstd
    have hg₃ : b₃.Grows b₄ := Grows.of_eq hbuild
    simp only [Part.Performed, Perform.referent_unpack, pass_lazy, pure_bind] at iharray ihindex ⊢
    refine .bind hg₁ (hg₂.trans hg₃) (iharray (hclear.below (hg₂.trans hg₃).size_le) hagrees hmirrors)
      fun hc s₁ m₁ _ hmirrors₁ hc' => ?_
    rw [hc'.type]
    refine .bind hg₂ hg₃ (ihindex (hclear.mono hg₁.size_le hg₃.size_le) (hagrees.mono hg₁.size_le) hmirrors₁)
      fun hi s₂ m₂ hkept hmirrors₂ hi' => ?_
    exact performs_extract (hg₁.trans hg₂).size_le hmirrors₂ (hclear.above (hg₁.trans hg₂).size_le) hbuild
      (hc'.later hclear (hg₂.trans hg₃).size_le hkept hg₂) (hi'.mono hg₁.size_le)
  | nil => exact .pure hmirrors .nil
  | @cons t ts o os b₁ b₂ b₃ hhead htail ihhead ihtail =>
    have hg₁ := hhead.grows hstd
    have hg₂ := htail.grows hstd
    simp only [Part.Performed, Perform.referents, pass_lazy, pure_bind] at ihhead ihtail ⊢
    refine .bind hg₁ hg₂ (ihhead (hclear.below hg₂.size_le) hagrees hmirrors)
      fun h s₁ m₁ _ hmirrors₁ hh => ?_
    refine .bind hg₂ (.refl b₃) (ihtail (hclear.above hg₁.size_le) (hagrees.mono hg₁.size_le) hmirrors₁)
      fun hs s₂ m₂ hkept hmirrors₂ hhs => .pure hmirrors₂ ?_
    exact .cons (hh.later hclear hg₂.size_le hkept hg₂) (hhs.mono hg₁.size_le)
  | placeLocal hfind =>
    obtain ⟨i, hname, hcell, hbound⟩ := hagrees _ _ hfind
    refine (Performs.pure hmirrors (.cell hcell hbound)).congr ?_
    rw [Perform.place, Perform.local?, hname]
    rfl
  | placeField hentry _ =>
    refine (Performs.pure hmirrors .slot).congr ?_
    rw [Perform.place, Perform.entry, show ctx.world.registry = ctx.registry from rfl, hentry]
    rfl
  | @placeComponent id array row column base container i b₁ b₂ b₃ b₄ hbase hload hindex ihbase ihindex =>
    have hg₁ := hbase.grows hstd
    have hg₂ : b₂.Grows b₃ := Grows.of_eq hload
    have hg₃ := hindex.grows hstd
    simp only [Part.Performed, Perform.place_unpack, pass_lazy, pure_bind] at ihbase ihindex ⊢
    refine .bindWithin hg₁ (hg₂.trans hg₃) (Nat.le_refl _) (Nat.le_refl _)
      (ihbase (hclear.below (hg₂.trans hg₃).size_le) hagrees hmirrors)
      fun site s₁ m₁ _ _ hmirrors₁ hp => ?_
    exact performs_component
      (f := fun ty => Perform.position pure ty (Perform.referent .lazy ctx.world names row)
        (column.map (Perform.referent .lazy ctx.world names))) hload hp hg₃ hindex.isArray hg₁.size_le hmirrors₁ hclear fun m₂ hmirrors₂ =>
      ihindex (hclear.above (hg₁.trans hg₂).size_le) (hagrees.mono (hg₁.trans hg₂).size_le) hmirrors₂
  | @index limit t v o b₁ b₂ b₃ hrange hvalue hinteger hbuild ih =>
    have hg₁ := hvalue.grows hstd
    have hg₂ : b₂.Grows b₃ := Grows.of_eq hbuild
    refine .bind hg₁ hg₂ (ih (hclear.below hg₂.size_le) hagrees hmirrors) fun h s₁ m₁ _ hmirrors₁ hv => ?_
    exact performs_asIndex hg₁.size_le hmirrors₁ (hclear.above hg₁.size_le) hinteger hbuild hv
  | vectorPosition hty _ ih | matrixPosition hty _ ih =>
    simp only [Part.Performed, hty, Perform.position]
    exact ih hclear hagrees hmirrors
  | @entryPosition container kind n row column i j o b₁ b₂ b₃ b₄ hty hrow hcolumn hbuild ihrow ihcolumn =>
    have hg₁ := hrow.grows hstd
    have hg₂ := hcolumn.grows hstd
    have hg₃ : b₃.Grows b₄ := Grows.of_eq hbuild
    have hposition : Perform.position pure container.ty (Perform.referent .lazy ctx.world names row)
        (Option.map (Perform.referent .lazy ctx.world names) (some column)) =
        (Perform.referent .lazy ctx.world names row >>= Perform.asIndex) >>= fun hi =>
          (Perform.referent .lazy ctx.world names column >>= Perform.asIndex) >>= fun hj =>
            Perform.settle hi >>= fun i => Perform.settle hj >>= fun j => pure (.datum (Datum.entryIndex n i j)) := by
      simp only [hty, Option.map_some, Perform.position, bind_assoc, pure_bind]
    simp only [Part.Performed] at ihrow ihcolumn ⊢
    rw [hposition]
    refine .bind hg₁ (hg₂.trans hg₃) (ihrow (hclear.below (hg₂.trans hg₃).size_le) hagrees hmirrors)
      fun hi s₁ m₁ _ hmirrors₁ hi' => ?_
    refine .bind hg₂ hg₃ (ihcolumn (hclear.mono hg₁.size_le hg₃.size_le) (hagrees.mono hg₁.size_le) hmirrors₁)
      fun hj s₂ m₂ hkept hmirrors₂ hj' => ?_
    have hi₂ := hi'.later hclear (hg₂.trans hg₃).size_le hkept hg₂
    exact performs_known (hg₁.trans hg₂).size_le hmirrors₂ (hclear.above (hg₁.trans hg₂).size_le) hbuild
      ((does_entryIndex n (hi₂.holds hmirrors₂) (hj'.holds hmirrors₂)).computes hbuild) rfl

end Generate

end Elementwise
