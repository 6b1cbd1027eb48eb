import Elementwise.Proofs.Perform.Realize

/-!
# Generated operations perform what they mean

The code of conversions, operators and components, of reading and writing places, realizes the action on
the referents that its operands realize. A place realizes a site: a register is that of its cell, and the
container of a component of a field is a register of its own.
-/

namespace Elementwise

open Builder

theorem Builder.bind_eq {α β : Type} {action : BuildM α} {k : α → BuildM β} {b b' : Builder} {e : β}
    (h : (action >>= k) b = (e, b')) : ∃ a b₁, action b = (a, b₁) ∧ k a b₁ = (e, b') := ⟨_, _, rfl, h⟩

/-- A place realizes a site; what it uses of its own has a register in a range. -/
inductive Sited (L : Layout) (lo hi : Nat) (b : Builder) : Place → Site → Machine → Prop
  | cell {i : Nat} {o : Operand} {m : Machine} (hcell : L[i]? = some o) (hbound : o.reg < b.regs.size) :
      Sited L lo hi b (.register o) (.whole (.cell i o.ty)) m
  | slot {slot : Nat} {ty : Ty} {m : Machine} : Sited L lo hi b (.slot slot ty) (.whole (.slot slot ty)) m
  | cellComponent {i : Nat} {o index : Operand} {h : Referent} {m : Machine} (hcell : L[i]? = some o)
      (hbound : o.reg < b.regs.size) (hindex : Stands L lo b index h m) :
      Sited L lo hi b (.component (.register o) o index) (.component (.cell i o.ty) (.cell i o.ty) h) m
  | slotComponent {slot : Nat} {container index : Operand} {d : Datum} {h : Referent} {m : Machine}
      (hlo : lo ≤ container.reg) (hhi : container.reg < hi) (hcontainer : container.Holds b d m)
      (hindex : Stands L lo b index h m) :
      Sited L lo hi b (.component (.slot slot container.ty) container index)
        (.component (.slot slot container.ty) (.datum d) h) m

namespace Sited

variable {L : Layout} {lo hi : Nat} {b b' : Builder} {p : Place} {site : Site} {m m' : Machine}

/-- The types agree. -/
theorem type (hp : Sited L lo hi b p site m) : site.ty = p.ty := by
  cases hp with
  | cell | slot | cellComponent => rfl
  | slotComponent hlo hhi hcontainer hindex => exact congrArg Ty.elementTy hcontainer.type

/-- A place that is not touched still realizes its site. -/
theorem later {hi' : Nat} (hp : Sited L lo hi b p site m) (hclear : L.Clear lo hi') (hle : b.regs.size ≤ hi')
    (hkept : m.Kept L b.regs.size m') (hb : b.Grows b') : Sited L lo hi b' p site m' := by
  cases hp with
  | cell hcell hbound => exact .cell hcell (Nat.lt_of_lt_of_le hbound hb.size_le)
  | slot => exact .slot
  | cellComponent hcell hbound hindex =>
    exact .cellComponent hcell (Nat.lt_of_lt_of_le hbound hb.size_le) (hindex.later hclear hle hkept hb)
  | slotComponent hlo hhi hcontainer hindex =>
    refine .slotComponent hlo hhi ⟨?_, hcontainer.type, Nat.lt_of_lt_of_le hcontainer.bound hb.size_le⟩
      (hindex.later hclear hle hkept hb)
    have hne := hclear.ne hlo (Nat.lt_of_lt_of_le hcontainer.bound hle)
    exact (hkept.regs _ hcontainer.bound hne).trans hcontainer.value

end Sited

namespace Generate

variable {p : Place} {site : Site} {u : Unit}

instance (op : BinaryOp) (l r : Operand) (common : Ty) : Fresh (applyBinary op l r common) := by
  unfold applyBinary; infer_instance
instance (op : UnaryOp) (o : Operand) (ty : Ty) : Fresh (applyUnary op o ty) := by unfold applyUnary; infer_instance
instance (os : List Operand) (ty : Ty) : Fresh (applyPack os ty) := by unfold applyPack; infer_instance
instance (n : UInt8) (row column : Operand) : Fresh (entryIndex n row column) := by unfold entryIndex; infer_instance

/-- What is loaded has the type of the place. -/
theorem load_ty {o : Operand} {b b' : Builder} (h : load p b = (o, b')) : o.ty = p.ty := by
  cases p with
  | register | slot | component => exact congrArg Operand.ty (Prod.mk.inj h).1.symm

variable {types : Array Ty} {fuel n lo hi : Nat} {L : Layout} {b b' : Builder} {m : Machine} {s : Store}
  {o l r v i : Operand} {h hl hr hi' : Referent}

/-- A scalar as a truth value. -/
theorem Truth.performs (ht : Truth v o b b') (hv : Stands L n b v h m) (hmirrors : Mirrors L s m)
    (hclear : L.Clear b.regs.size b'.regs.size) :
    Performs types fuel L b.regs.size b b' m s (Perform.truth h) fun d m' => o.Holds b' d m' ∧ d.ty = .bool := by
  have hperforms : Performs types fuel L b.regs.size b b' m s (Act.ofOption (s.read h).truth?) (o.Holds b') :=
    .ofOption hmirrors hclear (ht.computes (hv.holds hmirrors))
  have hty : o.ty = .bool := by
    have hbuild := ht.2
    unfold Builder.convert at hbuild
    split at hbuild
    · next heq => rw [← (Prod.mk.inj hbuild).1, heq]
    · exact congrArg Operand.ty (Prod.mk.inj hbuild).1.symm
  refine (hperforms.weaken (Nat.le_refl _) fun d m' _ hd => ⟨hd, hd.type.trans hty⟩).congr ?_
  rfl

section

variable (hn : n ≤ b.regs.size) (hmirrors : Mirrors L s m) (hclear : L.Clear b.regs.size b'.regs.size)

include hn hmirrors hclear

/-- A conversion gives the referent itself or a datum in a new register. -/
theorem performs_convert {goal : Ty} (hbuild : Builder.convert v goal b = (o, b')) (hv : Stands L n b v h m) :
    Performs types fuel L b.regs.size b b' m s (Perform.convert h goal) (Stands L n b' o) := by
  have hcomputes : Computes types fuel b.regs.size b b' m (pure ((s.read h).convert goal)) (o.Holds b') :=
    (does_convert (hv.holds hmirrors) goal).computes hbuild
  have hg : b.Grows b' := Grows.of_eq hbuild
  unfold Builder.convert at hbuild
  unfold Perform.convert
  rw [hv.type]
  by_cases hty : v.ty = goal
  · rw [if_pos hty] at hbuild ⊢
    obtain ⟨rfl, rfl⟩ := Prod.mk.inj hbuild
    exact .pure hmirrors hv
  · rw [if_neg hty] at hbuild ⊢
    have hfresh : b.regs.size ≤ o.reg := Nat.le_of_eq (congrArg Operand.reg (Prod.mk.inj hbuild).1)
    exact .known hg hmirrors hclear hcomputes rfl fun m' ho => .datum (Nat.le_trans hn hfresh) ho

/-- A conversion to a type that the operand converts to. -/
theorem Coerced.performs {ty : Ty} (hc : Coerced v ty o b b') (hv : Stands L n b v h m) :
    Performs types fuel L b.regs.size b b' m s (Perform.coerce h ty) (Stands L n b' o) := by
  rw [Perform.coerce, hv.type, if_pos hc.1]
  exact performs_convert hn hmirrors hclear hc.2 hv

/-- An integer as an index. -/
theorem performs_asIndex (hinteger : v.ty.isIntegerScalar = true) (hbuild : Builder.convert v .int32 b = (o, b'))
    (hv : Stands L n b v h m) :
    Performs types fuel L b.regs.size b b' m s (Perform.asIndex h) (Stands L n b' o) := by
  rw [Perform.asIndex, hv.type, if_pos hinteger]
  exact performs_convert hn hmirrors hclear hbuild hv

/-- An operator on two operands gives a datum in a new register. -/
theorem Operated.performs {op : BinaryOp} {n₁ n₂ : Nat} (ho : Operated op l r o b b') (hleft : Stands L n₁ b l hl m)
    (hright : Stands L n₂ b r hr m) :
    Performs types fuel L b.regs.size b b' m s (Perform.operate op hl hr) (Stands L n b' o) := by
  have hperforms : Performs types fuel L b.regs.size b b' m s (Act.ofOption (Datum.operate? op (s.read hl) (s.read hr)))
      (o.Holds b') := .ofOption hmirrors hclear (ho.computes (hleft.holds hmirrors) (hright.holds hmirrors))
  obtain ⟨common, -, -, hbuild⟩ := ho
  have hfresh : b.regs.size ≤ o.reg := Fresh.of_eq hbuild
  exact (hperforms.map (f := Referent.datum) fun d m' hd => .datum (Nat.le_trans hn hfresh) hd).congr rfl

/-- A datum that is known is computed into a new register. -/
theorem performs_known {action : BuildM Operand} [Placing action] [Fresh action] {d : Datum} {x : Act Referent}
    (hbuild : action b = (o, b')) (h : Computes types fuel b.regs.size b b' m (pure d) (o.Holds b'))
    (hx : x s = .value (.datum d) s) : Performs types fuel L b.regs.size b b' m s x (Stands L n b' o) :=
  .known (Grows.of_eq hbuild) hmirrors hclear h hx fun _ ho => .datum (Nat.le_trans hn (Fresh.of_eq hbuild)) ho

/-- The value in a slot. -/
theorem performs_readSlot {slot : Nat} {ty : Ty} {x : Act Referent} (hbuild : Builder.readSlot slot ty b = (o, b'))
    (hx : x s = .value (.datum (s.slot slot ty)) s) :
    Performs types fuel L b.regs.size b b' m s x (Stands L n b' o) := by
  refine performs_known hn hmirrors hclear hbuild ?_ hx
  rw [Store.slot, ← hmirrors.element]
  exact (does_readSlot slot ty).computes hbuild

/-- A component is a datum in a new register. -/
theorem performs_extract (hbuild : Builder.extract l i b = (o, b')) (hcontainer : Stands L n b l hl m)
    (hindex : Stands L n b i hr m) :
    Performs types fuel L b.regs.size b b' m s (Perform.component hl hr) (Stands L n b' o) :=
  performs_known hn hmirrors hclear hbuild
    ((does_extract (hcontainer.holds hmirrors) (hindex.holds hmirrors)).computes hbuild) rfl

/-- The code that reads a place. -/
theorem performs_load (hload : load p b = (o, b')) (hp : Sited L n hi b p site m) :
    Performs types fuel L b.regs.size b b' m s (Perform.load .lazy site) (Stands L n b' o) := by
  cases hp with
  | cell hcell hbound =>
    obtain ⟨rfl, rfl⟩ := Prod.mk.inj hload
    exact .pure hmirrors (.cell hcell hbound)
  | slot => exact performs_readSlot hn hmirrors hclear hload rfl
  | cellComponent hcell hbound hindex => exact performs_extract hn hmirrors hclear hload (.cell hcell hbound) hindex
  | slotComponent hlo hhi hcontainer hindex =>
    exact performs_extract hn hmirrors hclear hload (.datum hlo hcontainer) hindex

end

/-- A register that is overwritten with what another holds. -/
theorem performs_overwrite {d : Datum} (hassign : Builder.assign o v b = (u, b')) (hn : n ≤ o.reg)
    (hne : ∀ c ∈ L, c.reg ≠ o.reg) (hbound : o.reg < b.regs.size) (hv : m.regs[v.reg]? = some d.value)
    (hty : d.ty = o.ty) (hmirrors : Mirrors L s m) :
    Performs types fuel L n b b' m s (pure (Referent.datum d)) (Stands L n b' o) := by
  refine .writeRegister hassign rfl ?_ hn hbound hne hmirrors fun m' hvalue _ => .datum hn ⟨hvalue, hty, ?_⟩
  · simp only [Instr.run, Machine.withReg, hv]
  · exact Nat.lt_of_lt_of_le hbound (Adds.of_emit hassign).size_le

/-- The code that writes a place: only a cell, or the container of a component, changes. -/
theorem performs_store (hstore : store p v b = (u, b')) (hp : Sited L lo hi b p site m) (hv : Stands L n b v h m)
    (hmirrors : Mirrors L s m) (hdistinct : L.Distinct) (hclear : L.Clear lo hi) :
    Performs types fuel L lo b b' m s (Perform.store .lazy site h)
      fun _ m' => ∀ r : Reg, hi ≤ r → (∀ c ∈ L, c.reg ≠ r) → m'.regs[r]? = m.regs[r]? := by
  have hvalue := (hv.holds hmirrors).value
  cases hp with
  | @cell j c _ hcell hbound =>
    refine (Performs.writeCell hstore rfl ?_ hcell hmirrors hdistinct).weaken (Nat.le_refl _)
      fun _ m' _ hm' r _ hr => hm' r hr
    simp only [Instr.run, Machine.withReg, hvalue]
  | @slot slot ty =>
    refine .emit { m with state := m.state.write slot (s.read h).value } hstore rfl ⟨rfl, fun _ _ _ => rfl⟩
      (hmirrors.setSlot slot _) fun _ => ⟨?_, fun _ _ _ => rfl⟩
    simp only [Instr.run, Machine.withReg, hvalue]
  | @cellComponent j c index hindexReferent _ hcell hbound hindex =>
    have hemit : Builder.insert c index v b = (u, b') := by
      unfold store at hstore
      simp only [if_true] at hstore
      exact hstore
    refine (Performs.writeCell hemit rfl ?_ hcell hmirrors hdistinct).weaken (Nat.le_refl _)
      fun _ m' _ hm' r _ hr => hm' r hr
    simp only [Instr.run, Machine.withReg, hvalue, (hindex.holds hmirrors).value, hmirrors.cells j c hcell]
    rfl
  | @slotComponent slot c index d hindexReferent _ hlo hhi hcontainer hindex =>
    obtain ⟨_, b₁, hinsert, hwrite⟩ := bind_eq hstore
    -- the component is replaced in the container, which is written back
    let d' := d.replace (s.read hindexReferent) (s.read h)
    have hinserted : Performs types fuel L lo b b₁ m s (pure ()) fun _ m' => m'.regs[c.reg]? = some d'.value ∧
        ∀ r : Reg, hi ≤ r → m'.regs[r]? = m.regs[r]? := by
      refine .writeRegister hinsert rfl ?_ hlo hcontainer.bound (hclear.ne hlo hhi) hmirrors fun m' hd' hregs =>
        ⟨hd', fun r hr => hregs r (Nat.ne_of_lt (Nat.lt_of_lt_of_le hhi hr))⟩
      simp only [Instr.run, Machine.withReg, hvalue, (hindex.holds hmirrors).value, hcontainer.value]
      rfl
    refine .bindWithin (y := fun _ => Perform.store .lazy _ h) (Grows.of_eq hinsert) (Grows.of_eq hwrite)
      (Nat.le_refl lo) (Nat.le_refl lo) hinserted
      fun _ s₁ m₁ hs₁ hkept hmirrors₁ hm₁ => ?_
    obtain rfl : s = s₁ := (Result.value.inj hs₁).2
    refine .emit { m₁ with state := m₁.state.write slot d'.value } hwrite rfl ⟨rfl, fun _ _ _ => rfl⟩
      (hmirrors₁.setSlot slot _) fun _ => ⟨?_, fun r hr _ => hm₁.2 r hr⟩
    simp only [Instr.run, Machine.withReg, hm₁.1]

/-- The code that stores in a place what is one step from what the place holds. -/
theorem performs_increment {op : CrementOp} {current one new : Operand} {d : Datum} {b₁ b₂ b₃ : Builder}
    (hone : Builder.constantAs (.int32 1) p.ty b = (one, b₁))
    (hnew : Builder.binary op.binary current one p.ty b₁ = (new, b₂)) (hstore : store p new b₂ = (u, b₃))
    (hcurrent : current.Holds b d m) (hty : current.ty = p.ty) (hp : Sited L lo hi b p site m) (hlo : lo ≤ hi)
    (hhi : hi ≤ b.regs.size) (hmirrors : Mirrors L s m) (hdistinct : L.Distinct) (hclear : L.Clear lo b₃.regs.size) :
    Performs types fuel L lo b b₃ m s (Perform.store .lazy site (.datum (d.step op))) fun _ m' =>
      Stands L lo b₃ new (.datum (d.step op)) m' ∧
        ∀ r : Reg, hi ≤ r → r < b.regs.size → (∀ c ∈ L, c.reg ≠ r) → m'.regs[r]? = m.regs[r]? := by
  have hg₁ : b.Grows b₁ := Grows.of_eq hone
  have hg₂ : b₁.Grows b₂ := Grows.of_eq hnew
  have hg₃ : b₂.Grows b₃ := Grows.of_eq hstore
  have hlob : lo ≤ b.regs.size := Nat.le_trans hlo hhi
  have hfresh : b₁.regs.size ≤ new.reg := Fresh.of_eq hnew
  have hcomputed : Computes types fuel b.regs.size b b₂ m (pure (d.step op)) (new.Holds b₂) := by
    have hdoes : Does types fuel b (do
        let one ← Builder.constantAs (.int32 1) p.ty
        Builder.binary op.binary current one p.ty) m (pure (d.step op)) Operand.Holds := by
      refine (does_constant ((Value.int32 1).convert p.ty)).before fun one b₁ m₁ hb hlater hone => ?_
      rw [Datum.step, hcurrent.type, hty]
      exact does_binary (hcurrent.later hlater hb) hone op.binary p.ty
    refine hdoes.computes ?_
    change Builder.binary op.binary current (Builder.constantAs (.int32 1) p.ty b).1 p.ty
      (Builder.constantAs (.int32 1) p.ty b).2 = (new, b₂)
    rw [hone]
    exact hnew
  refine .after (hg₁.trans hg₂) hg₃ hlob hmirrors (hclear.mono hlob hg₃.size_le) hcomputed fun m₂ hlater hmirrors₂ hnew => ?_
  have hp₂ : Sited L lo hi b₂ p site m₂ :=
    hp.later hclear ((hg₁.trans hg₂).trans hg₃).size_le hlater.kept (hg₁.trans hg₂)
  have hnew₂ : Stands L lo b₂ new (.datum (d.step op)) m₂ :=
    .datum (Nat.le_trans (Nat.le_trans hlob hg₁.size_le) hfresh) hnew
  refine (performs_store hstore hp₂ hnew₂ hmirrors₂ hdistinct
    (hclear.below (Nat.le_trans hhi ((hg₁.trans hg₂).trans hg₃).size_le))).weaken (Nat.le_refl _)
    fun _ m' _ hm' => ⟨hnew₂.keep hg₃ fun hlow hbound => ?_, fun r hr hrb hne => ?_⟩
  · refine hm' _ (Nat.le_trans (Nat.le_trans hhi hg₁.size_le) hfresh) ?_
    exact hclear.ne hlow (Nat.lt_of_lt_of_le hbound hg₃.size_le)
  · exact (hm' r hr hne).trans (hlater.regs r (.inl hrb))

/-- The code that steps a place. -/
theorem performs_step {op : CrementOp} {post : Bool} (hstep : step op post p b = (o, b'))
    (hp : Sited L lo hi b p site m) (hlo : lo ≤ hi) (hhi : hi ≤ b.regs.size) (hmirrors : Mirrors L s m)
    (hdistinct : L.Distinct) (hclear : L.Clear lo b'.regs.size) :
    Performs types fuel L lo b b' m s (Perform.step .lazy op post site) (Stands L lo b' o) := by
  have hlob : lo ≤ b.regs.size := Nat.le_trans hlo hhi
  obtain ⟨current, b₁, hload, hstep⟩ := bind_eq hstep
  have hg₁ : b.Grows b₁ := Grows.of_eq hload
  have hty : current.ty = p.ty := load_ty hload
  cases post with
  | false =>
    obtain ⟨_, _, hnone, hstep⟩ := bind_eq hstep
    obtain ⟨rfl, rfl⟩ := Prod.mk.inj hnone
    obtain ⟨one, b₂, hone, hstep⟩ := bind_eq hstep
    obtain ⟨new, b₃, hnew, hstep⟩ := bind_eq hstep
    obtain ⟨_, b₄, hstore, hresult⟩ := bind_eq hstep
    obtain ⟨rfl, rfl⟩ := Prod.mk.inj hresult
    have hg₄ : b₁.Grows b₄ := ((Grows.of_eq hone).trans (Grows.of_eq hnew)).trans (Grows.of_eq hstore)
    refine .bindWithin hg₁ hg₄ hlob (Nat.le_refl _)
      (performs_load hlob hmirrors (hclear.mono hlob hg₄.size_le) hload hp) fun h s₁ m₁ _ hkept hmirrors₁ hcurrent => ?_
    have hp₁ := hp.later hclear (hg₁.trans hg₄).size_le hkept hg₁
    exact ((performs_increment hone hnew hstore (hcurrent.holds hmirrors₁) hty hp₁ hlo
      (Nat.le_trans hhi hg₁.size_le) hmirrors₁ hdistinct hclear).map fun _ m' hm' => hm'.1).congr rfl
  | true =>
    obtain ⟨old, b₂, halloc, hstep⟩ := bind_eq hstep
    obtain ⟨_, b₃, hassign, hstep⟩ := bind_eq hstep
    obtain ⟨_, _, hsome, hstep⟩ := bind_eq hstep
    obtain ⟨rfl, rfl⟩ := Prod.mk.inj hsome
    obtain ⟨one, b₄, hone, hstep⟩ := bind_eq hstep
    obtain ⟨new, b₅, hnew, hstep⟩ := bind_eq hstep
    obtain ⟨_, b₆, hstore, hresult⟩ := bind_eq hstep
    obtain ⟨rfl, rfl⟩ := Prod.mk.inj hresult
    have hg₃ : b₁.Grows b₃ := (Grows.of_eq halloc).trans (Grows.of_eq hassign)
    have hg₆ : b₃.Grows b₆ := ((Grows.of_eq hone).trans (Grows.of_eq hnew)).trans (Grows.of_eq hstore)
    have hfresh : b₁.regs.size ≤ old.reg := Nat.le_of_eq (congrArg Operand.reg (Prod.mk.inj halloc).1)
    have hlo₁ : lo ≤ b₁.regs.size := Nat.le_trans hlob hg₁.size_le
    refine .bindWithin hg₁ (hg₃.trans hg₆) hlob (Nat.le_refl _)
      (performs_load hlob hmirrors (hclear.mono hlob (hg₃.trans hg₆).size_le) hload hp)
      fun h s₁ m₁ _ hkept hmirrors₁ hcurrent => ?_
    have hp₁ := hp.later hclear (hg₁.trans (hg₃.trans hg₆)).size_le hkept hg₁
    have hholds := hcurrent.holds hmirrors₁
    -- the old value is copied before the place changes
    refine .after hg₃ hg₆ hlo₁ hmirrors₁ (hclear.mono hlo₁ hg₆.size_le)
      (computes_copy halloc hassign hholds (hholds.type.trans hty)) fun m₃ hlater hmirrors₃ hold => ?_
    have hp₃ := hp₁.later hclear (hg₃.trans hg₆).size_le hlater.kept hg₃
    have hold' : Stands L lo b₃ old (.datum (s₁.read h)) m₃ := .datum (Nat.le_trans hlo₁ hfresh) hold
    refine ((performs_increment hone hnew hstore (hholds.later hlater hg₃) hty hp₃ hlo
      (Nat.le_trans hhi (hg₁.trans hg₃).size_le) hmirrors₃ hdistinct hclear).map
      (f := fun _ => Referent.datum (s₁.read h)) fun _ m' hm' => ?_).congr rfl
    exact hold'.keep hg₆ fun hlow hbound => hm'.2 _ (Nat.le_trans hhi (Nat.le_trans hg₁.size_le hfresh)) hbound
      (hclear.ne hlow (Nat.lt_of_lt_of_le hbound hg₆.size_le))

end Generate

end Elementwise
