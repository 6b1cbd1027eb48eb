import Elementwise.Proofs.Generate.Ensures

/-!
# What generation opens, it closes

Generation may stop in the middle of a term with an error, and goes on behind it. Wherever that is, the blocks, scopes
and loops that were opened on the way have been closed. So the block that is open after a program is the one that was
open before it, and holds all of its code.
-/

namespace Elementwise.Generate

variable {ctx : Context}

/-- A statement leaves the nesting as it was. -/
theorem sameNesting_stmt (hlibrary : ctx.library.Placing) (t : Term) (g : Generation) :
    g.SameNesting (stmt ctx t g).2 :=
  (ensures False.elim False.elim t g False.elim).2.1 hlibrary

/-- A value and a place leave the nesting as it was. -/
theorem sameNesting_expr (hlibrary : ctx.library.Placing) (t : Term) (g : Generation) :
    g.SameNesting ((expr ctx t).run g).2 ∧ g.SameNesting ((place ctx t).run g).2 := by
  obtain ⟨hexpr, hplace⟩ := ensures_expr (K := False) (P := (·.kind ≠ .backend)) (fun _ hd => hd.1)
    (fun _ _ (_ : True) _ => partReports_fieldSlot) False.elim False.elim t
  exact ⟨(hexpr (fun _ _ => trivial) g False.elim).2.1 hlibrary,
    (hplace (fun _ _ => trivial) g False.elim).2.1 hlibrary⟩

/-- Statements leave the nesting as it was. -/
theorem sameNesting_stmts (hlibrary : ctx.library.Placing) (ts : List Term) (g : Generation) :
    g.SameNesting (stmts ctx ts g).2 := by
  induction ts generalizing g with
  | nil => rw [stmts]; exact .refl g
  | cons t ts ih => rw [stmts]; exact (sameNesting_stmt hlibrary t g).trans (ih _)

/-- One block is open after a program, no scope and no loop is, and that block is the program's code. -/
theorem generate_closed (hlibrary : ctx.library.Placing) (program : Term) (sink : Sink) :
    let g := (stmt ctx program (ctx.start sink)).2
    (g.builder.enclosing = [] ∧ g.scopes = [] ∧ g.loopDepth = 0) ∧
      (Code.generate ctx program sink).1.body = g.builder.current.toList := by
  intro g
  obtain ⟨⟨code, hadds⟩, hscopes, hdepth⟩ : (ctx.start sink).SameNesting g := sameNesting_stmt hlibrary program _
  refine ⟨⟨hadds.enclosing, List.length_eq_zero_iff.mp hscopes, hdepth⟩, ?_⟩
  exact hadds.finish.1.trans hadds.current.symm

/-- Statements one after another are generated one after another. -/
theorem stmts_append (before after : List Term) :
    stmts ctx (before ++ after) = (do stmts ctx before; stmts ctx after) := by
  induction before with
  | nil => rw [stmts, pure_bind, List.nil_append]
  | cons t ts ih => rw [List.cons_append, stmts, stmts, ih, bind_assoc]

/-- The code of a block starts with the code of its first statements. -/
theorem generate_block_prefix (hlibrary : ctx.library.Placing) (id : NodeId) (before after : List Term) (sink : Sink) :
    (Code.generate ctx (.node id (.block before)) sink).1.body <+:
      (Code.generate ctx (.node id (.block (before ++ after))) sink).1.body := by
  rw [(generate_closed hlibrary _ sink).2, (generate_closed hlibrary _ sink).2, stmt, stmt, stmts_append]
  -- closing the scope does not touch the code
  obtain ⟨code, hadds⟩ := (sameNesting_stmts hlibrary after
    (stmts ctx before { ctx.start sink with scopes := [[]] }).2).blocks
  exact ⟨code, hadds.current.symm⟩

/-- What generation opens, it closes, whatever the term is and wherever its errors stand. A statement, a value, a
place and a call each leave the blocks around the open one as they were, add to the open one at its end, and leave
as many scopes and loops open. A block that was opened for one of them therefore gives back all that was put into it.
After a program one block is open and is the program's code, which starts with the code of what came first. -/
theorem nesting_balanced (registry : Registry) (custom : CustomData) (spanOf : NodeId → Option Span) :
    let ctx : Context := ⟨registry, .standard, custom, spanOf⟩
    (∀ (t : Term) (g : Generation), g.SameNesting (stmt ctx t g).2 ∧ g.SameNesting ((expr ctx t).run g).2 ∧
      g.SameNesting ((place ctx t).run g).2) ∧
    (∀ (id : NodeId) (name : String) (args : List Term) (g : Generation),
      g.SameNesting ((exprNode ctx id (.call name args)).run g).2) ∧
    (∀ (t : Term) (g : Generation),
      (inBlock (stmt ctx t) g).1.2 = (stmt ctx t g.opened).2.builder.current.toList ∧
      (inBlock (expr ctx t).run g).1.2 = ((expr ctx t).run g.opened).2.builder.current.toList) ∧
    (∀ (program : Term) (sink : Sink),
      let g := (stmt ctx program (ctx.start sink)).2
      (g.builder.enclosing = [] ∧ g.scopes = [] ∧ g.loopDepth = 0) ∧
        (Code.generate ctx program sink).1.body = g.builder.current.toList) ∧
    ∀ (id : NodeId) (before after : List Term) (sink : Sink),
      (Code.generate ctx (.node id (.block before)) sink).1.body <+:
        (Code.generate ctx (.node id (.block (before ++ after))) sink).1.body := by
  intro ctx
  have hlibrary : ctx.library.Placing := Library.standard_placing
  have hstmt := sameNesting_stmt hlibrary
  have hexpr := sameNesting_expr hlibrary
  refine ⟨fun t g => ⟨hstmt t g, hexpr t g⟩, fun id name args g => ?_, fun t g => ?_, generate_closed hlibrary,
    generate_block_prefix hlibrary⟩
  · simpa only [expr] using (hexpr (.node id (.call name args)) g).1
  · exact ⟨(hstmt t g.opened).inBlock.2, (hexpr t g.opened).1.inBlock.2⟩

end Elementwise.Generate
