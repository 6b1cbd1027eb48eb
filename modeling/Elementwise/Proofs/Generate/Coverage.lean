import Elementwise.Proofs.Generate.Statements

/-!
# Whatever is generated is generated in full

A term that was generated by the rules had all its parts generated by them, down to the last one. Only the
name of a declaration is not generated by itself: the declaration stands for it.
-/

namespace Elementwise.Generate

variable {c t : Term}

/-- A term was generated by the rules: as a value, as a place or as a statement. -/
inductive Generated (ctx : Context) (t : Term) : Prop
  | value {scopes o b b'} (h : Emits ctx scopes (.value t o) b b')
  | place {scopes p b b'} (h : Emits ctx scopes (.place t p) b b')
  | statement {depth scopes b scopes' b'} (h : Issues ctx depth (.one t) scopes b scopes' b')

variable {ctx : Context} {scopes scopes' : Scopes} {b b' : Builder} {depth : Nat} {id : NodeId} {content : Node Term}

/-- Each of the terms that were generated one after another was generated. -/
theorem Emits.generated_of_mem {ts : List Term} {os : List Operand} (h : Emits ctx scopes (.values ts os) b b')
    (ht : t ∈ ts) : Generated ctx t := by
  induction ts generalizing os b with
  | nil => cases ht
  | cons s ts ih =>
    cases h with
    | cons hhead htail =>
      rcases List.mem_cons.mp ht with rfl | ht
      · exact .value hhead
      · exact ih htail ht

/-- The terms of a position were generated. -/
theorem Emits.generated_of_position {container o : Operand} {index : Term} {column : Option Term}
    (h : Emits ctx scopes (.position container index column o) b b') (ht : t ∈ index :: column.toList) :
    Generated ctx t := by
  have hindex {limit : Nat} {s : Term} {o : Operand} {b b' : Builder} (h : Emits ctx scopes (.index limit s o) b b') :
      Generated ctx s := by
    cases h with
    | index _ hvalue => exact .value hvalue
  cases h with
  | vectorPosition _ h | matrixPosition _ h =>
    obtain rfl : t = index := by simpa using ht
    exact hindex h
  | entryPosition _ hrow hcolumn =>
    simp only [Option.toList_some, List.mem_cons, List.not_mem_nil, or_false] at ht
    rcases ht with rfl | rfl
    · exact hindex hrow
    · exact hindex hcolumn

/-- The parts of a term that was generated as a value were generated. -/
theorem Emits.generated_child {o : Operand} (h : Emits ctx scopes (.value (.node id content) o) b b')
    (hc : c ∈ content.children) : Generated ctx c := by
  cases h with
  | literal | localName | field | external => simp at hc
  | logical _ hleft _ _ _ hright | binary _ hleft hright =>
    simp only [Node.children, List.mem_cons, List.not_mem_nil, or_false] at hc
    rcases hc with rfl | rfl
    · exact .value hleft
    · exact .value hright
  | unary h | cast h =>
    obtain rfl := List.mem_singleton.mp hc
    exact .value h
  | crement htarget =>
    obtain rfl := List.mem_singleton.mp hc
    exact .place htarget
  | assign htarget hvalue | compound htarget hvalue =>
    simp only [Node.children, List.mem_cons, List.not_mem_nil, or_false] at hc
    rcases hc with rfl | rfl
    · exact .place htarget
    · exact .value hvalue
  | native h | inline h | inlineVoid h | pack h => exact h.generated_of_mem hc
  | unpack harray hindex =>
    rcases List.mem_cons.mp hc with rfl | hc
    · exact .value harray
    · exact hindex.generated_of_position hc

/-- The parts of a term that was generated as a place were generated. -/
theorem Emits.generated_child_of_place {p : Place} (h : Emits ctx scopes (.place (.node id content) p) b b')
    (hc : c ∈ content.children) : Generated ctx c := by
  cases h with
  | placeLocal | placeField => simp at hc
  | placeComponent hbase _ hindex =>
    rcases List.mem_cons.mp hc with rfl | hc
    · exact .place hbase
    · exact hindex.generated_of_position hc

/-- Each of the statements that were issued one after another was generated. -/
theorem Issues.generated_of_mem {ts : List Term} (h : Issues ctx depth (.list ts) scopes b scopes' b') (ht : t ∈ ts) :
    Generated ctx t := by
  induction ts generalizing scopes b with
  | nil => cases ht
  | cons s ts ih =>
    cases h with
    | cons hhead htail =>
      rcases List.mem_cons.mp ht with rfl | ht
      · exact .statement hhead
      · exact ih htail ht

/-- A statement that may be absent was generated if it is there. -/
theorem Issues.generated_of_some (h : Issues ctx depth (.maybe (some t)) scopes b scopes' b') : Generated ctx t := by
  cases h with
  | present h => exact .statement h

/-- The parts of a statement were generated, but for the local name that it declares. -/
theorem Issues.generated_child (h : Issues ctx depth (.one (.node id content)) scopes b scopes' b')
    (hc : c ∈ content.children) :
    Generated ctx c ∨ ∃ ty nameId name start, c = .node nameId (.localName name) ∧ content = .declare ty c start := by
  cases h with
  | block h => exact .inl (h.generated_of_mem hc)
  | conditional htest _ hthen _ helse =>
    simp only [Node.children, List.mem_cons, List.not_mem_nil, or_false] at hc
    rcases hc with rfl | rfl | rfl
    · exact .inl (.value htest)
    · exact .inl (.statement hthen)
    · exact .inl (.statement helse)
  | loop hstart htest _ hbody _ hstep =>
    simp only [Node.children, List.mem_append, Option.mem_toList, List.mem_singleton] at hc
    rcases hc with ((rfl | rfl) | rfl) | rfl
    · exact .inl hstart.generated_of_some
    · cases htest with
      | condition hvalue => exact .inl (.value hvalue)
    · exact .inl hstep.generated_of_some
    · exact .inl (.statement hbody)
  | jump => simp at hc
  | declareZero =>
    obtain rfl := List.mem_singleton.mp hc
    exact .inr ⟨_, _, _, _, rfl, rfl⟩
  | declareValue _ _ hstart =>
    simp only [Node.children, Option.toList_some, List.mem_cons, List.not_mem_nil, or_false] at hc
    rcases hc with rfl | rfl
    · exact .inr ⟨_, _, _, _, rfl, rfl⟩
    · exact .inl (.value hstart)
  | expression h => exact .inl (h.generated_child hc)

/-- The parts of a term that was generated were generated, but for the local name that it declares. -/
theorem Generated.child (h : Generated ctx (.node id content)) (hc : c ∈ content.children) :
    Generated ctx c ∨ ∃ ty nameId name start, c = .node nameId (.localName name) ∧ content = .declare ty c start := by
  cases h with
  | value h => exact .inl (h.generated_child hc)
  | place h => exact .inl (h.generated_child_of_place hc)
  | statement h => exact h.generated_child hc

end Elementwise.Generate
