import Elementwise.Proofs.Compile.Inversion
import Elementwise.Proofs.Evaluate.Builtin

/-!
# Values of the host reach a program by name

A program names values of the host in nodes of their own and in lookups by a literal name. Generation asks the
host for these names and for no other, and the inline functions of the standard library, which are handed all
values of the host, look at none. So a program compiles alike for hosts that agree on the names it mentions.
-/

namespace Elementwise

/-- A node that names a value of the host: a node of its own, or a lookup by a literal name. -/
inductive Node.NamesHost (name : String) : Node Term → Prop
  | external (ty : Ty) : NamesHost name (.external name ty)
  | lookup {function : String} {ty : Ty} (hty : Tree.externalTy? function = some ty) (argId : NodeId) :
      NamesHost name (.call function [.node argId (.value (.string name))])

/-- A value of the host is named somewhere in a term. -/
def Term.Mentions (t : Term) (name : String) : Prop :=
  ∃ id content, Term.Within (.node id content) t ∧ content.NamesHost name

/-- What a child mentions is mentioned. -/
theorem Term.Mentions.of_child {id : NodeId} {content : Node Term} {c : Term} {name : String}
    (hc : c ∈ content.children) (h : c.Mentions name) : (Term.node id content).Mentions name := by
  obtain ⟨id', content', hin, hnames⟩ := h
  exact ⟨id', content', .child hc hin, hnames⟩

/-- A name is mentioned by a node itself or below it. -/
theorem Term.mentions_node {id : NodeId} {content : Node Term} {name : String} :
    (Term.node id content).Mentions name ↔ content.NamesHost name ∨ ∃ c ∈ content.children, c.Mentions name := by
  constructor
  · rintro ⟨id', content', hin, hnames⟩
    cases hin with
    | self => exact .inl hnames
    | child hc hin => exact .inr ⟨_, hc, id', content', hin, hnames⟩
  · rintro (hnames | ⟨c, hc, h⟩)
    · exact ⟨id, content, .self _, hnames⟩
    · exact .of_child hc h

/-- Lowering a program mentions nothing new. -/
theorem Lowers.mentions {t t' : Term} {name : String} (h : Lowers t t') (hname : t'.Mentions name) :
    t.Mentions name := by
  obtain ⟨id', content', hin, hnames⟩ := hname
  obtain ⟨s, hs, hlowers⟩ := h.exists_within hin
  cases hlowers with
  | missing => cases hnames
  | @lookup id _ argId _ _ _ hty =>
    cases hnames
    exact ⟨id, _, hs, .lookup hty argId⟩
  | @node id _ content _ hshape hchildren =>
    refine ⟨id, content, hs, ?_⟩
    cases hnames with
    | external ty =>
      cases content <;> simp [Node.shape, Node.map, Node.mapM, Id.run, bind, pure] at hshape
      obtain ⟨rfl, rfl⟩ := hshape
      exact .external _
    | lookup hty argId =>
      cases content with
      | call function args =>
        simp only [Node.shape, Node.map_call, Node.call.injEq] at hshape
        obtain ⟨rfl, hlength⟩ := hshape
        obtain ⟨c, rfl⟩ : ∃ c, args = [c] := List.length_eq_one_iff.mp (by simpa using congrArg List.length hlength)
        obtain ⟨argId', rfl⟩ := (hchildren c _ (List.mem_singleton_self _)).of_value
        exact .lookup hty argId'
      | _ => simp [Node.shape, Node.map, Node.mapM, Id.run, bind, pure] at hshape

/-! ## Inline functions -/

/-- An inline function that looks at no value of the host. -/
def Function.IgnoresHost (f : Function) : Prop :=
  ∀ generator, f.implementation = .emitted generator → ∀ custom custom', generator custom = generator custom'

namespace Library

/-- Every inline function of the groups of the standard library ignores the host. -/
theorem standardGroups_ignoreHost : ∀ g ∈ standardGroups, ∀ f ∈ g.functions, f.IgnoresHost := by
  intro g hg f hf generator hgenerator custom custom'
  obtain ⟨builtin, -, rfl, -⟩ := standardGroups_builtins g hg f hf generator hgenerator
  cases builtin <;> rfl

/-- A library whose inline functions all ignore the host. -/
def IgnoresHost (l : Library) : Prop := ∀ name g, l.get? name = some g → ∀ f ∈ g.functions, f.IgnoresHost

theorem standard_ignoresHost : standard.IgnoresHost :=
  fun _ g h => standardGroups_ignoreHost g (mem_standardGroups h).1

end Library

/-! ## Generation -/

namespace Generate

variable {α β : Type} {ctx : Context} {custom : CustomData} {id : NodeId}

theorem fail_bind_congr {kind : ErrorKind} {message : String} (f f' : α → PartM β) :
    (fail ctx kind id message >>= f) = fail ctx kind id message >>= f' := rfl

/-- A value of the host depends on what the host has under its name. -/
theorem externalValue_custom {name : String} {ty : Ty} (h : custom.get? name = ctx.custom.get? name) :
    externalValue { ctx with custom } id name ty = externalValue ctx id name ty := by
  unfold externalValue
  rw [h]
  rfl

/-- A call does not depend on the host if its overloads ignore it. -/
theorem callValues_custom {name : String} {group : Group} (h : ∀ f ∈ group.functions, f.IgnoresHost)
    (values : List Operand) :
    callValues { ctx with custom } id name group values = callValues ctx id name group values := by
  unfold callValues
  cases hresolve : group.resolve (values.map Operand.ty) with
  | error e => rfl
  | ok resolution =>
    dsimp only
    cases himplementation : resolution.function.implementation with
    | native body => rfl
    | emitted generator =>
      have hgenerator := h _ (Group.resolve_eq_ok hresolve).1 generator himplementation custom ctx.custom
      simp only [inlineCall, hgenerator]
      rfl

/-- What comes after the group of a call was found only matters for the groups of the library. -/
theorem callee_bind_congr {name : String} {f f' : Group → PartM α}
    (h : ∀ group, ctx.library.get? name = some group → f group = f' group) :
    (callee { ctx with custom } id name >>= f) = callee ctx id name >>= f' := by
  unfold callee
  cases hgroup : ctx.library.get? name with
  | none => exact fail_bind_congr f f'
  | some group =>
    dsimp only
    split
    · exact fail_bind_congr f f'
    · exact h group hgroup

/-- Terms that are generated alike one by one are so in a list. -/
theorem exprs_custom (ts : List Term) (h : ∀ t ∈ ts, expr { ctx with custom } t = expr ctx t) :
    exprs { ctx with custom } ts = exprs ctx ts := by
  induction ts with
  | nil => rw [exprs, exprs]
  | cons t ts ih =>
    rw [List.forall_mem_cons] at h
    rw [exprs, exprs, h.1, ih h.2]

/-- Statements that are generated alike one by one are so in a list. -/
theorem stmts_custom (ts : List Term) (h : ∀ t ∈ ts, stmt { ctx with custom } t = stmt ctx t) :
    stmts { ctx with custom } ts = stmts ctx ts := by
  induction ts with
  | nil => rw [stmts, stmts]
  | cons t ts ih =>
    rw [List.forall_mem_cons] at h
    rw [stmts, stmts, h.1, ih h.2]

/-- A term that may be absent, with something that is read off it. -/
theorem part_custom (f : Term → α) (part : Option Term) (h : ∀ t ∈ part, expr { ctx with custom } t = expr ctx t) :
    (part.map fun t => (f t, expr { ctx with custom } t)) = part.map fun t => (f t, expr ctx t) :=
  Option.map_congr fun t ht => congrArg (Prod.mk (f t)) (h t ht)

section

variable (hlibrary : ctx.library.IgnoresHost)

include hlibrary

/-- Terms whose names of the host have the same values are generated alike, as values and as places. -/
theorem expr_custom (t : Term) (h : ∀ name, t.Mentions name → custom.get? name = ctx.custom.get? name) :
    expr { ctx with custom } t = expr ctx t ∧ place { ctx with custom } t = place ctx t := by
  induction t using Term.children_induction with
  | missing id => exact ⟨rfl, rfl⟩
  | node id content ih =>
    have hexpr {c : Term} (hc : c ∈ content.children) : expr { ctx with custom } c = expr ctx c :=
      (ih c hc fun name hname => h name (.of_child hc hname)).1
    have hplace {c : Term} (hc : c ∈ content.children) : place { ctx with custom } c = place ctx c :=
      (ih c hc fun name hname => h name (.of_child hc hname)).2
    constructor
    · rw [expr, expr]
      cases content with
      | external name ty => exact externalValue_custom (h name ⟨id, _, .self _, .external ty⟩)
      | binary op left right =>
        rw [exprNode, exprNode, hexpr (c := left) (by simp),
          hexpr (c := right) (by simp)]
        rfl
      | unary op operand =>
        rw [exprNode, exprNode, hexpr (by simp)]
        rfl
      | crement op post target =>
        rw [exprNode, exprNode, hplace (by simp)]
        rfl
      | assign target value compound =>
        rw [exprNode, exprNode, hplace (c := target) (by simp),
          hexpr (c := value) (by simp)]
        rfl
      | cast ty operand =>
        rw [exprNode, exprNode, hexpr (by simp)]
        rfl
      | call name args =>
        rw [exprNode, exprNode, exprs_custom args fun t ht => hexpr ht]
        refine callee_bind_congr fun group hgroup => ?_
        simp only [callValues_custom (hlibrary name group hgroup)]
      | pack items =>
        rw [exprNode, exprNode, exprs_custom items fun t ht => hexpr ht]
        rfl
      | unpack array index column =>
        rw [exprNode_unpack, exprNode_unpack, hexpr (c := array) (by simp),
          hexpr (c := index) (by simp),
          part_custom (fun t => t) column fun t ht => hexpr (by simp_all)]
        rfl
      | _ => simp only [exprNode] <;> rfl
    · cases content with
      | unpack array index column =>
        rw [place_unpack, place_unpack, hplace (c := array) (by simp),
          hexpr (c := index) (by simp),
          part_custom (fun t => t) column fun t ht => hexpr (by simp_all)]
        rfl
      | _ => simp only [place]; rfl

/-- Terms whose names of the host have the same values are generated alike as statements. -/
theorem stmt_custom (t : Term) (h : ∀ name, t.Mentions name → custom.get? name = ctx.custom.get? name) :
    stmt { ctx with custom } t = stmt ctx t := by
  induction t using Term.children_induction with
  | missing id => rw [stmt, stmt]
  | node id content ih =>
    have hexprNode : exprNode { ctx with custom } id content = exprNode ctx id content := by
      have hexpr := (expr_custom hlibrary _ h).1
      rwa [expr, expr] at hexpr
    have hexpr {c : Term} (hc : c ∈ content.children) : expr { ctx with custom } c = expr ctx c :=
      (expr_custom hlibrary c fun name hname => h name (.of_child hc hname)).1
    have hstmt {c : Term} (hc : c ∈ content.children) : stmt { ctx with custom } c = stmt ctx c :=
      ih c hc fun name hname => h name (.of_child hc hname)
    cases content with
    | block statements => rw [stmt, stmt, stmts_custom statements fun t ht => hstmt ht]
    | conditional test thenBranch elseBranch =>
      rw [stmt, stmt, hexpr (c := test) (by simp), hstmt (c := thenBranch) (by simp),
        hstmt (c := elseBranch) (by simp)]
      rfl
    | loop kind start test step body =>
      have hpart (part : Option Term) (hpart : ∀ t ∈ part, t ∈ (Node.loop kind start test step body).children) :
          stmt? { ctx with custom } part = stmt? ctx part := by
        cases part with
        | none => rfl
        | some t => exact hstmt (hpart t rfl)
      rw [stmt_loop, stmt_loop, hstmt (c := body) (by simp),
        hpart start (by simp_all), hpart step (by simp_all),
        part_custom Term.id test fun t ht => hexpr (by simp_all)]
      rfl
    | declare ty name start =>
      rw [stmt, stmt, part_custom Term.id start fun t ht => hexpr (by simp_all)]
      rfl
    | jump word => rfl
    | _ => rw [stmt, stmt, hexprNode] <;> simp

end

end Generate

/-- The code of a program depends on the values of the host that it names. -/
theorem Code.generate_custom (ctx : Context) (custom : CustomData) (hlibrary : ctx.library.IgnoresHost) {program : Term}
    (h : ∀ name, program.Mentions name → custom.get? name = ctx.custom.get? name) (sink : Sink) :
    generate { ctx with custom } program sink = generate ctx program sink := by
  unfold generate
  rw [Generate.stmt_custom hlibrary program h]

/-! ## Compilation -/

namespace Tree

variable {t : Tree} {map : SourceMap} {target : Target} {options : CompileOptions} {custom custom' : CustomData}

theorem lowered_custom : t.lowered map { options with custom } = t.lowered map options := by
  simp only [lowered, startSink]

theorem registered_custom : t.registered map target { options with custom } = t.registered map target options := by
  simp only [registered, lowered_custom]

/-- Without an error of lowering, the stages before the backend depend on the values of the host that the program
names. -/
theorem frontEnd_custom (hlibrary : options.library.IgnoresHost)
    (h : ∀ name, t.program.Mentions name → custom.get? name = custom'.get? name)
    (hlowered : (t.lowered map options).sink.hasFatal = false) :
    t.frontEnd map target { options with custom } = t.frontEnd map target { options with custom := custom' } := by
  have hlowers : Lowers t.program (t.lowered map options).tree.program := by
    rw [Sink.hasFatal_eq_false, lowered] at hlowered
    rw [lowered]
    exact Lowering.lowers_run hlowered
  have hgenerate := Code.generate_custom (t.context map target { options with custom := custom' }) custom hlibrary
    (fun name hname => h name (hlowers.mentions hname)) (t.registered map target options).2
  rw [frontEnd, frontEnd]
  simp only [context, lowered_custom, registered_custom] at hgenerate ⊢
  rw [hgenerate]

/-- A compilation depends on the values of the host that the program names, if the inline functions ignore the
host. -/
theorem compile_custom (hlibrary : options.library.IgnoresHost)
    (h : ∀ name, t.program.Mentions name → custom.get? name = custom'.get? name) :
    t.compile map target { options with custom } = t.compile map target { options with custom := custom' } := by
  rw [compile_eq, compile_eq]
  simp only [lowered_custom, registered_custom]
  split
  · rfl
  · next hlowered => rw [frontEnd_custom hlibrary h (by simpa using hlowered)]

/-- A program sees the host through the names it mentions. With the standard library, a tree compiles alike,
to the same registry and code with the same diagnostics or to the same failure, for hosts that have the same under
every name that its program mentions; if it mentions none, then for all hosts. -/
theorem compile_eq_of_agree (t : Tree) (map : SourceMap) (target : Target) (options : CompileOptions)
    (hlibrary : options.library = .standard) :
    (∀ custom custom' : CustomData, (∀ name, t.program.Mentions name → custom.get? name = custom'.get? name) →
      t.compile map target { options with custom } = t.compile map target { options with custom := custom' }) ∧
    ((∀ name, ¬ t.program.Mentions name) → ∀ custom custom' : CustomData,
      t.compile map target { options with custom } = t.compile map target { options with custom := custom' }) := by
  have hignores : options.library.IgnoresHost := by
    rw [hlibrary]
    exact Library.standard_ignoresHost
  constructor
  · intro custom custom' h
    exact compile_custom hignores h
  · intro hnone custom custom'
    exact compile_custom hignores fun name hname => absurd hname (hnone name)

/-- A program that looks up one value of the host by a call and another in a node of its own. -/
def scaledBias : Tree where
  id := 0
  slots := #[some ⟨.block [4], none⟩, some ⟨.value (.string "gain"), some 2⟩, some ⟨.call "external" [1], some 4⟩,
    some ⟨.external "bias" .float, some 4⟩, some ⟨.binary .mul 2 3, some 0⟩]
  root := 0

/-- The hosts agree on a value and both lack the other; what else they have is not seen. -/
theorem compile_eq_of_agree_scaledBias :
    (∀ name, scaledBias.program.Mentions name ↔ name = "gain" ∨ name = "bias") ∧
      scaledBias.compile (.empty scaledBias) .points { custom := ⟨[("gain", .float 2), ("seed", .int32 1)]⟩ } =
        scaledBias.compile (.empty scaledBias) .points { custom := ⟨[("gain", .float 2)]⟩ } := by
  have hprogram : scaledBias.program = .node 0 (.block [.node 4 (.binary .mul
      (.node 2 (.call "external" [.node 1 (.value (.string "gain"))])) (.node 3 (.external "bias" .float)))]) := rfl
  have hnames (name : String) : scaledBias.program.Mentions name ↔ name = "gain" ∨ name = "bias" := by
    rw [hprogram]
    simp only [Term.mentions_node, Node.children, List.mem_cons, List.not_mem_nil, or_false, false_and, exists_false,
      exists_eq_or_imp, exists_eq_left]
    constructor
    · rintro (h | h | (h | h) | h) <;> cases h <;> simp
    · rintro (rfl | rfl)
      · exact .inr (.inr (.inl (.inl (.lookup (show externalTy? "external" = some .float from rfl) 1))))
      · exact .inr (.inr (.inr (.external .float)))
  refine ⟨hnames, (compile_eq_of_agree scaledBias (.empty scaledBias) .points {} rfl).1 _ _ fun name hname => ?_⟩
  rcases (hnames name).mp hname with rfl | rfl <;> rfl

end Tree

end Elementwise
