import Elementwise.Proofs.Compile.Performs
import Elementwise.Proofs.Generate.Expansion
import Elementwise.Proofs.Perform.Expansion

/-!
# A compound assignment means its expansion

A program is accepted exactly if it is with compound assignments expanded, and on every run the two programs
then leave the same slots, the same written flags and the same locals. Only native calls may be made more often,
since the target of an expansion is found twice. This is so for all operators but the logical ones: a compound
assignment takes the type of the operands for that of a logical operator, and so leaves a truth value in a field
of any type, where the expansion converts it.
-/

namespace Elementwise

/-- Machines with the same element and, local by local, the same values in the registers of two layouts. -/
structure Machine.Agrees (L L' : Layout) (m m' : Machine) : Prop where
  element : m'.state = m.state
  locals : List.Forall₂ (fun o o' => m'.regs[o'.reg]? = m.regs[o.reg]?) L L'

/-- Runs that end in the same way, with the same element and the same locals. -/
inductive Outcome.Agrees (L L' : Layout) : Outcome Flow → Outcome Flow → Prop
  | done {flow : Flow} {m m' : Machine} (h : m.Agrees L L' m') : Agrees L L' (.done flow m) (.done flow m')
  | failed {reason : Fault} {m m' : Machine} (h : m.Agrees L L' m') : Agrees L L' (.failed reason m) (.failed reason m')
  | exhausted : Agrees L L' .exhausted .exhausted

section

variable {L L' : Layout} {size size' : Nat}

/-- Runs that agree end on the same element. -/
theorem Outcome.Agrees.element {out out' : Outcome Flow} (h : out.Agrees L L' out') {ending ending' : Ending}
    (hout : out.ending? = some ending) (hout' : out'.ending? = some ending') : ending'.element = ending.element := by
  cases h with
  | done h | failed h =>
    cases hout
    cases hout'
    exact h.element
  | exhausted => cases hout

/-- Machines agree if they mirror stores that are the same. -/
theorem Mirrors.agrees {s s' : Store} {m m' : Machine} (h : Mirrors L s m) (h' : Mirrors L' s' m') (hs : s.Same s')
    (htypes : L'.map Operand.ty = L.map Operand.ty) : m.Agrees L L' m' := by
  have hlength : L'.length = L.length := by simpa using congrArg List.length htypes
  refine ⟨by rw [h.element, h'.element, hs.element], List.forall₂_iff_get.mpr ⟨hlength.symm, fun i hi hi' => ?_⟩⟩
  have hty : L'[i].ty = L[i].ty := by
    have hi'' : (L'.map Operand.ty)[i]? = (L.map Operand.ty)[i]? := by rw [htypes]
    simpa [hi, hi'] using hi''
  have hcell := h.cells i L[i] (List.getElem?_eq_getElem hi)
  have hcell' := h'.cells i L'[i] (List.getElem?_eq_getElem hi')
  rw [List.get_eq_getElem, List.get_eq_getElem, hcell, hcell', hty, Store.cell, Store.cell, hs.cells]

/-- Runs agree if they take courses that are the same. -/
theorem Accords.agrees {out out' : Outcome Flow} {c c' : Course} (h : Accords L size out c) (h' : Accords L' size' out' c')
    (hc : c.Alike (fun _ _ => True) c') (htypes : L'.map Operand.ty = L.map Operand.ty) : out.Agrees L L' out' := by
  cases hc with
  | done hs =>
    cases h with
    | done _ hmirrors =>
      cases h' with
      | done _ hmirrors' => exact .done (hmirrors.agrees hmirrors' hs htypes)
  | fault hs =>
    cases h with
    | fault hmirrors =>
      cases h' with
      | fault hmirrors' => exact .failed (hmirrors.agrees hmirrors' hs htypes)
  | stuck => cases h
  | exhausted =>
    cases h
    cases h'
    exact .exhausted

end

/-- Code that was generated for a term without an error compiles to a program that enacts the term. -/
theorem Code.exists_enacts {ctx : Context} (hstd : ctx.library = .standard) (hnumbered : ctx.registry.Numbered) {t : Term}
    (hcomplete : t.Complete) {sink : Sink} (h : (Code.generate ctx t sink).2.errors = sink.errors) :
    ∃ q L, (Code.generate ctx t sink).1.compile = .ok q ∧ q.Enacts ctx.world t L := by
  obtain ⟨scopes, b, hissues, hcode⟩ := Code.issues_of_generate hcomplete h
  have hverify : b.finish.verify = .ok () := hissues.verified hstd hnumbered
  obtain ⟨L, henacts⟩ := hissues.enacts hstd (show (Program.mk b.finish hverify).code = b.finish from rfl)
  exact ⟨⟨b.finish, hverify⟩, L, by rw [hcode, Code.compile_eq_ok hverify], henacts⟩

namespace Term

/-- Compound assignments mean their expansions: with any of them expanded, a program is accepted exactly if it
was, and the two programs leave the same slots, written flags and locals on every run. -/
theorem compound_means_expansion {ctx : Context} (hstd : ctx.library = .standard) (hnumbered : ctx.registry.Numbered)
    {t t' : Term} (h : t.Expands t') (sink : Sink) :
    ((Code.generate ctx t sink).2.errors = sink.errors ↔ (Code.generate ctx t' sink).2.errors = sink.errors) ∧
    ((Code.generate ctx t sink).2.errors = sink.errors →
      ∃ q L q' L', (Code.generate ctx t sink).1.compile = .ok q ∧ q.Enacts ctx.world t L ∧
        (Code.generate ctx t' sink).1.compile = .ok q' ∧ q'.Enacts ctx.world t' L' ∧
        ∀ fuel element, (q.run fuel element).Agrees L L' (q'.run fuel element)) := by
  have hiff := h.accepted_iff hstd sink
  refine ⟨hiff, fun haccepted => ?_⟩
  obtain ⟨hcomplete, hcomplete'⟩ := h.complete
  obtain ⟨q, L, hq, henacts⟩ := Code.exists_enacts hstd hnumbered hcomplete haccepted
  obtain ⟨q', L', hq', henacts'⟩ := Code.exists_enacts hstd hnumbered hcomplete' (hiff.mp haccepted)
  have halike := h.alike ctx.world
  have htypes : L'.map Operand.ty = L.map Operand.ty := by rw [henacts.types, henacts'.types, halike.after]
  refine ⟨q, L, q', L', hq, henacts, hq', henacts', fun fuel element => ?_⟩
  have hcourse := halike.exec fuel {} { element } { element } ⟨rfl, rfl, trivial⟩
  exact (henacts.accords fuel element).agrees (henacts'.accords fuel element) hcourse htypes

/-- What code is generated with, for points with the two fields and the standard library. -/
def twoFieldContext (a b : String) (tyA tyB : Ty) : Context where
  registry := (({ target := .points } : Registry).register a tyA true).2.register b tyB false |>.2
  library := .standard
  custom := {}
  spanOf _ := none

/-- Registered fields are numbered. -/
theorem numbered_twoFieldContext (a b : String) (tyA tyB : Ty) : (twoFieldContext a b tyA tyB).registry.Numbered := by
  have hempty : ({ target := .points } : Registry).Numbered := fun i name e h => by simp [Table.at?] at h
  exact (hempty.register a tyA true).register b tyB false

/-- `int32 x = 2; x *= 3; vec3i@v[x - 5] += @a;`, where a local and a component are assigned. -/
def scaled : Term := .node 0 (.block [
  .node 1 (.declare .int32 (.node 2 (.localName "x")) (some (.node 3 (.value (.int32 2))))),
  .node 4 (.assign (.node 5 (.localName "x")) (.node 6 (.value (.int32 3))) (some .mul)),
  .node 7 (.assign (.node 8 (.unpack (.node 9 (.field "v" (.vector .int32 3) false true))
      (.node 10 (.binary .sub (.node 11 (.localName "x")) (.node 12 (.value (.int32 5))))) none))
    (.node 13 (.field "a" .int32 false false)) (some .add))])

/-- `int32 x = 2; x = x * 3; vec3i@v[x - 5] = vec3i@v[x - 5] + @a;`. -/
def scaledExpanded : Term := .node 0 (.block [
  .node 1 (.declare .int32 (.node 2 (.localName "x")) (some (.node 3 (.value (.int32 2))))),
  .node 4 (.assign (.node 5 (.localName "x"))
    (.node 14 (.binary .mul (.node 15 (.localName "x")) (.node 6 (.value (.int32 3))))) none),
  .node 7 (.assign (.node 8 (.unpack (.node 9 (.field "v" (.vector .int32 3) false true))
      (.node 10 (.binary .sub (.node 11 (.localName "x")) (.node 12 (.value (.int32 5))))) none))
    (.node 16 (.binary .add
      (.node 17 (.unpack (.node 18 (.field "v" (.vector .int32 3) false false))
        (.node 19 (.binary .sub (.node 20 (.localName "x")) (.node 21 (.value (.int32 5))))) none))
      (.node 13 (.field "a" .int32 false false)))) none)])

/-- The one expands to the other. -/
theorem scaled_expands : scaled.Expands scaledExpanded := by
  have hname (id id' : NodeId) (name : String) : Expands (.node id (.localName name)) (.node id' (.localName name)) :=
    .node rfl nofun
  have hvalue (id id' : NodeId) (v : Literal) : Expands (.node id (.value v)) (.node id' (.value v)) := .node rfl nofun
  have hpair {a a' b b' : Term} (h : a.Expands a') (h' : b.Expands b') :
      ∀ c c', (c, c') ∈ [a, b].zip [a', b'] → c.Expands c' := by
    simp only [List.zip_cons_cons, List.zip_nil_left, List.mem_cons, List.not_mem_nil, or_false, Prod.mk.injEq]
    rintro c c' (⟨rfl, rfl⟩ | ⟨rfl, rfl⟩)
    · exact h
    · exact h'
  have hcomponent (id id₁ id₂ id₃ id₄ : NodeId) (writable : Bool) : Expands
      (.node 8 (.unpack (.node 9 (.field "v" (.vector .int32 3) false true))
        (.node 10 (.binary .sub (.node 11 (.localName "x")) (.node 12 (.value (.int32 5))))) none))
      (.node id (.unpack (.node id₁ (.field "v" (.vector .int32 3) false writable))
        (.node id₂ (.binary .sub (.node id₃ (.localName "x")) (.node id₄ (.value (.int32 5))))) none)) :=
    .node rfl (hpair .field (.node rfl (hpair (hname 11 id₃ "x") (hvalue 12 id₄ (.int32 5)))))
  refine .node rfl ?_
  simp only [Node.children, List.zip_cons_cons, List.zip_nil_left, List.mem_cons, List.not_mem_nil, or_false]
  rintro c c' (h | h | h)
  · obtain ⟨rfl, rfl⟩ := Prod.mk.inj h
    exact .node rfl (hpair (hname 2 2 "x") (hvalue 3 3 (.int32 2)))
  · obtain ⟨rfl, rfl⟩ := Prod.mk.inj h
    refine .compound (by decide) ?_ ?_ (hname 5 5 "x") (hname 5 15 "x") (hvalue 6 6 (.int32 3)) <;>
      simp [Term.Everywhere.iff_children, Node.Changeless]
  · obtain ⟨rfl, rfl⟩ := Prod.mk.inj h
    refine .compound (by decide) ?_ ?_ (hcomponent 8 9 10 11 12 true) (hcomponent 17 18 19 20 21 false) .field <;>
      simp [Term.Everywhere.iff_children, Node.Changeless]

/-- A local and a component that are assigned in both ways. -/
theorem compound_means_expansion_scaled :
    (twoFieldContext "v" "a" (.vector .int32 3) .int32).registry.Numbered ∧ scaled.Expands scaledExpanded ∧
      ∃ q L q' L', (Code.generate (twoFieldContext "v" "a" (.vector .int32 3) .int32) scaled {}).1.compile = .ok q ∧
        q.Enacts (twoFieldContext "v" "a" (.vector .int32 3) .int32).world scaled L ∧
        (Code.generate (twoFieldContext "v" "a" (.vector .int32 3) .int32) scaledExpanded {}).1.compile = .ok q' ∧
        q'.Enacts (twoFieldContext "v" "a" (.vector .int32 3) .int32).world scaledExpanded L' ∧
        ∀ fuel element, (q.run fuel element).Agrees L L' (q'.run fuel element) := by
  have hnumbered := numbered_twoFieldContext "v" "a" (.vector .int32 3) .int32
  have haccepted : (Code.generate (twoFieldContext "v" "a" (.vector .int32 3) .int32) scaled {}).2.errors = 0 := by
    decide +kernel
  exact ⟨hnumbered, scaled_expands, (compound_means_expansion rfl hnumbered scaled_expands {}).2 haccepted⟩

/-- Where other texts are seen after two runs, the runs do not agree. -/
theorem not_agrees_of_texts {o o' : Outcome Flow} {texts texts' : List String}
    (h : Ending.seen? ElementState.texts o.ending? = some texts)
    (h' : Ending.seen? ElementState.texts o'.ending? = some texts') (hne : texts ≠ texts') (L L' : Layout) :
    ¬o.Agrees L L' o' := by
  obtain ⟨s, calls, hends, htexts⟩ := Ending.exists_of_seen? h
  obtain ⟨s', calls', hends', htexts'⟩ := Ending.exists_of_seen? h'
  intro hagrees
  have hsame : s' = s := hagrees.element hends hends'
  exact hne (by rw [← htexts, ← hsame, htexts'])

/-- `@a &&= @b;`, on fields of integers. -/
def conjoined : Term := .node 0 (.block [
  .node 1 (.assign (.node 2 (.field "a" .int32 false true)) (.node 3 (.field "b" .int32 false false)) (some .and))])

/-- `@a = @a && @b;`. -/
def conjoinedExpanded : Term := .node 0 (.block [
  .node 1 (.assign (.node 2 (.field "a" .int32 false true))
    (.node 4 (.binary .and (.node 5 (.field "a" .int32 false false)) (.node 3 (.field "b" .int32 false false)))) none)])

/-- The compound assignment leaves a truth value in a field of integers, and the expansion a one. -/
theorem conjoined_not_expansion :
    (Code.generate (twoFieldContext "a" "b" .int32 .int32) conjoined {}).2.errors = 0 ∧
    (Code.generate (twoFieldContext "a" "b" .int32 .int32) conjoinedExpanded {}).2.errors = 0 ∧
    ∃ q q', (Code.generate (twoFieldContext "a" "b" .int32 .int32) conjoined {}).1.compile = .ok q ∧
      (Code.generate (twoFieldContext "a" "b" .int32 .int32) conjoinedExpanded {}).1.compile = .ok q' ∧
      ∀ L L', ¬(q.run 0 (.start #[.int32 2, .int32 3] none)).Agrees L L' (q'.run 0 (.start #[.int32 2, .int32 3] none)) := by
  have hseen {t : Term} {texts : List String}
      (h : (Code.generate (twoFieldContext "a" "b" .int32 .int32) t {}).1.compile.toOption.map (fun q =>
        Ending.seen? ElementState.texts (q.run 0 (.start #[.int32 2, .int32 3] none)).ending?) = some (some texts)) :=
    exists_ok_of_map h
  obtain ⟨q, hq, htexts⟩ := hseen (t := conjoined) (show _ = some (some ["true", "3"]) by decide +kernel)
  obtain ⟨q', hq', htexts'⟩ := hseen (t := conjoinedExpanded) (show _ = some (some ["1", "3"]) by decide +kernel)
  exact ⟨by decide +kernel, by decide +kernel, q, q', hq, hq', not_agrees_of_texts htexts htexts' (by decide)⟩

end Term

end Elementwise
