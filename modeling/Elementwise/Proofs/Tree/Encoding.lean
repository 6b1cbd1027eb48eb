import Elementwise.Proofs.Tree.Reachable
import Elementwise.Proofs.Tree.Same
import Elementwise.Tree.Digest

/-!
# The bytes of a program tell its syntax

A node is written as a tag, what it holds apart from its children, and its children in order, with a mark
for one that is absent. No tag is that mark, and lengths stand before what they measure, so the bytes of a
node can be read off again whatever follows them. Two programs are written alike exactly if they are the
same syntax.
-/

namespace Elementwise

namespace Node

variable {α β : Type}

/-- The places for children, in order; a place may be empty. -/
def places : Node α → List (Option α)
  | block items | call _ items | pack items => items.map some
  | conditional condition thenBranch elseBranch => [some condition, some thenBranch, some elseBranch]
  | loop _ start condition step body => [start, condition, step, some body]
  | declare _ name start => [some name, start]
  | binary _ left right => [some left, some right]
  | unary _ operand | crement _ _ operand | cast _ operand => [some operand]
  | assign target source _ => [some target, some source]
  | unpack array index column => [some array, some index, column]
  | jump _ | value _ | localName _ | field _ _ _ _ | external _ _ => []

/-- The places after replacing each child. -/
theorem places_map (f : α → β) (n : Node α) : (n.map f).places = n.places.map (Option.map f) := by
  cases n with
  | block | call | pack => simp [places, Function.comp_def]
  | loop | declare | unpack => simp [places]
  | _ => rfl

theorem children_eq_places (n : Node α) : n.children = n.places.flatMap Option.toList := by
  cases n <;> simp [children, places, List.flatMap_map]

/-- The texts in a node: a name or a string literal. -/
def texts : Node α → List String
  | call name _ | localName name | field name _ _ _ | external name _ => [name]
  | value (.string s) => [s]
  | _ => []

/-- A node whose texts and list of children have lengths that fit into four bytes. -/
structure Short (n : Node α) : Prop where
  texts : ∀ s ∈ n.texts, s.utf8ByteSize < 4294967296
  children : n.children.length < 4294967296

end Node

namespace Encoding

variable {rest rest' : List UInt8}

/-- Words are written by their four bytes. -/
theorem word32_injective : Function.Injective word32 := by
  intro a b h
  simp only [word32, Blake3.bytesOfWord, List.cons.injEq, and_true] at h
  obtain ⟨h₀, h₁, h₂, h₃⟩ := h
  apply UInt32.toNat_inj.mp
  have h₀ := congrArg UInt8.toNat h₀
  have h₁ := congrArg UInt8.toNat h₁
  have h₂ := congrArg UInt8.toNat h₂
  have h₃ := congrArg UInt8.toNat h₃
  simp only [UInt32.toNat_toUInt8, UInt32.toNat_shiftRight, Nat.shiftRight_eq_div_pow] at h₀ h₁ h₂ h₃
  have ha := a.toNat_lt
  have hb := b.toNat_lt
  simp at h₁ h₂ h₃
  omega

/-- Double words are written by their two words. -/
theorem word64_injective : Function.Injective word64 := by
  intro a b h
  obtain ⟨hlow, hhigh⟩ := List.append_inj h rfl
  have hlow := congrArg UInt32.toNat (word32_injective hlow)
  have hhigh := congrArg UInt32.toNat (word32_injective hhigh)
  apply UInt64.toNat_inj.mp
  have ha := a.toNat_lt
  have hb := b.toNat_lt
  simp [Nat.shiftRight_eq_div_pow] at hlow hhigh
  omega

/-- A length that fits into four bytes can be read off. -/
theorem length_inj {n n' : Nat} (hn : n < 4294967296) (hn' : n' < 4294967296)
    (h : length n ++ rest = length n' ++ rest') : n = n' ∧ rest = rest' := by
  obtain ⟨hword, hrest⟩ := List.append_inj h rfl
  have hnat := congrArg UInt32.toNat (word32_injective hword)
  rw [UInt32.toNat_ofNat', UInt32.toNat_ofNat', Nat.mod_eq_of_lt hn, Nat.mod_eq_of_lt hn'] at hnat
  exact ⟨hnat, hrest⟩

/-- Reading an array of bytes from a position. -/
theorem toList_loop (bytes : ByteArray) (i : Nat) (read : List UInt8) :
    ByteArray.toList.loop bytes i read = read.reverse ++ bytes.data.toList.drop i := by
  induction hk : bytes.size - i generalizing i read with
  | zero =>
    rw [ByteArray.toList.loop.eq_1, if_neg (by omega), List.drop_of_length_le, List.append_nil]
    simp only [Array.length_toList, ByteArray.size_data]
    omega
  | succ k ih =>
    have hi : i < bytes.size := by omega
    have hi' : i < bytes.data.toList.length := by simpa using hi
    rw [ByteArray.toList.loop.eq_1, if_pos hi, ih (i + 1) _ (by omega), List.drop_eq_getElem_cons hi', List.reverse_cons,
      List.append_assoc, List.singleton_append]
    congr 2
    cases bytes with
    | mk data => exact getElem!_pos data i hi

theorem toList_eq (bytes : ByteArray) : bytes.toList = bytes.data.toList := toList_loop bytes 0 []

/-- A text whose length fits into four bytes can be read off. -/
theorem text_inj {s s' : String} (hs : s.utf8ByteSize < 4294967296) (hs' : s'.utf8ByteSize < 4294967296)
    (h : text s ++ rest = text s' ++ rest') : s = s' ∧ rest = rest' := by
  obtain ⟨hsize, h⟩ := length_inj hs hs' h
  rw [toList_eq, toList_eq] at h
  obtain ⟨hbytes, hrest⟩ := List.append_inj h (by simpa using hsize)
  refine ⟨String.toByteArray_inj.mp ?_, hrest⟩
  exact ByteArray.ext (Array.toList_inj.mp hbytes)

/-- Values of which there are finitely many are told apart if no byte is used twice. -/
theorem injective_of_all {α : Type} {write : α → UInt8} (all : List α) (hall : ∀ a, a ∈ all)
    (h : (all.map write).Nodup) : Function.Injective write :=
  fun a b heq => List.inj_on_of_nodup_map h (hall a) (hall b) heq

theorem flag_injective : Function.Injective flag := injective_of_all [false, true] (by decide) (by decide)

theorem kind_injective : Function.Injective kind :=
  injective_of_all [.bool, .int16, .int32, .int64, .float, .double] (fun k => by cases k <;> decide) (by decide)

theorem binaryOp_injective : Function.Injective binaryOp :=
  injective_of_all BinaryOp.all (fun op => by cases op <;> decide) (by decide)

theorem unaryOp_injective : Function.Injective unaryOp :=
  injective_of_all UnaryOp.all (fun op => by cases op <;> decide) (by decide)

theorem loopKind_injective : Function.Injective loopKind :=
  injective_of_all [.for, .while, .doWhile] (fun k => by cases k <;> decide) (by decide)

theorem jump_injective : Function.Injective jump :=
  injective_of_all [.return, .break, .continue] (fun w => by cases w <;> decide) (by decide)

theorem crementOp_injective : Function.Injective fun op : CrementOp => flag (op == .decrement) :=
  injective_of_all [.increment, .decrement] (fun op => by cases op <;> decide) (by decide)

/-- The operator of an assignment, or its absence, is written by a byte of its own. -/
theorem compound_injective : Function.Injective fun op : Option BinaryOp => (op.map binaryOp).getD absent := by
  intro a b h
  have hop (op : BinaryOp) : binaryOp op ≠ absent := by cases op <;> decide
  cases a with
  | none =>
    cases b with
    | none => rfl
    | some op => exact absurd h.symm (hop op)
  | some op =>
    cases b with
    | none => exact absurd h (hop op)
    | some op' => exact congrArg some (binaryOp_injective h)

theorem ty_inj {t t' : Ty} (h : ty t ++ rest = ty t' ++ rest') : t = t' ∧ rest = rest' := by
  cases t <;> cases t' <;> simp_all [ty] <;> grind [kind_injective]

/-- Small integers are written by their two bytes. -/
theorem int16_inj {n n' : Int16} (hlow : n.toUInt16.toUInt8 = n'.toUInt16.toUInt8)
    (hhigh : (n.toUInt16 >>> 8).toUInt8 = (n'.toUInt16 >>> 8).toUInt8) : n = n' := by
  refine Int16.toBitVec.inj (congrArg UInt16.toBitVec (UInt16.toNat_inj.mp ?_))
  have hlow := congrArg UInt8.toNat hlow
  have hhigh := congrArg UInt8.toNat hhigh
  simp only [UInt16.toNat_toUInt8, UInt16.toNat_shiftRight, Nat.shiftRight_eq_div_pow] at hlow hhigh
  have hn := n.toUInt16.toNat_lt
  have hn' := n'.toUInt16.toNat_lt
  simp at hhigh
  omega

/-- The content of a literal can be read off if its type is known. -/
theorem content_inj {l l' : Literal} (hl : ∀ s, l = .string s → s.utf8ByteSize < 4294967296)
    (hl' : ∀ s, l' = .string s → s.utf8ByteSize < 4294967296) (hty : l.ty = l'.ty)
    (h : content l ++ rest = content l' ++ rest') : l = l' ∧ rest = rest' := by
  cases l <;> cases l' <;> try cases hty
  case bool.bool =>
    obtain ⟨hflag, hrest⟩ := List.cons.inj h
    exact ⟨congrArg Literal.bool (flag_injective hflag), hrest⟩
  case int16.int16 =>
    obtain ⟨hlow, h⟩ := List.cons.inj h
    obtain ⟨hhigh, hrest⟩ := List.cons.inj h
    exact ⟨congrArg Literal.int16 (int16_inj hlow hhigh), hrest⟩
  case int32.int32 =>
    obtain ⟨hword, hrest⟩ := List.append_inj h rfl
    exact ⟨congrArg Literal.int32 (Int32.toBitVec.inj (congrArg UInt32.toBitVec (word32_injective hword))), hrest⟩
  case int64.int64 =>
    obtain ⟨hword, hrest⟩ := List.append_inj h rfl
    exact ⟨congrArg Literal.int64 (Int64.toBitVec.inj (congrArg UInt64.toBitVec (word64_injective hword))), hrest⟩
  case float.float =>
    obtain ⟨hword, hrest⟩ := List.append_inj h rfl
    exact ⟨congrArg Literal.float (word32_injective hword), hrest⟩
  case double.double =>
    obtain ⟨hword, hrest⟩ := List.append_inj h rfl
    exact ⟨congrArg Literal.double (word64_injective hword), hrest⟩
  case string.string =>
    obtain ⟨rfl, hrest⟩ := text_inj (hl _ rfl) (hl' _ rfl) h
    exact ⟨rfl, hrest⟩

/-- A literal can be read off. -/
theorem literal_inj {l l' : Literal} (hl : ∀ s, l = .string s → s.utf8ByteSize < 4294967296)
    (hl' : ∀ s, l' = .string s → s.utf8ByteSize < 4294967296)
    (h : literal l ++ rest = literal l' ++ rest') : l = l' ∧ rest = rest' := by
  rw [literal, literal, List.append_assoc, List.append_assoc] at h
  obtain ⟨hty, h⟩ := ty_inj h
  exact content_inj hl hl' hty h

variable {α : Type}

/-- The byte that a node of a kind begins with. -/
def tag (kind : NodeKind) : UInt8 := UInt8.ofNat (NodeKind.all.idxOf kind + 1)

/-- What is written of a node between its tag and its children. -/
def head : Node α → List UInt8
  | .block items | .pack items => length items.length
  | .call name args => text name ++ length args.length
  | .loop kind _ _ _ _ => [loopKind kind]
  | .jump word => [jump word]
  | .declare t _ _ | .cast t _ => ty t
  | .binary op _ _ => [binaryOp op]
  | .unary op _ => [unaryOp op]
  | .crement op post _ => [flag (op == .decrement), flag post]
  | .assign _ _ compound => [(compound.map binaryOp).getD absent]
  | .value lit => literal lit
  | .localName name => text name
  | .field name t inferred writable => text name ++ ty t ++ [flag inferred, flag writable]
  | .external name t => text name ++ ty t
  | .conditional _ _ _ | .unpack _ _ _ => []

/-- Replacing children keeps what is written between the tag and the children. -/
theorem head_map {β : Type} (f : α → β) (n : Node α) : head (n.map f) = head n := by
  cases n with
  | block | call | pack => simp [head]
  | loop | declare | unpack => simp [head]
  | _ => rfl

/-- A node is written as its tag, its content and its children. -/
theorem node_eq (n : Node Term) : node n = tag n.kind :: (head n ++ n.places.flatMap optional) := by
  have hterms (items : List Term) : terms items = items.flatMap term := by
    induction items with
    | nil => rfl
    | cons t rest ih => rw [terms, ih, List.flatMap_cons]
  cases n <;> simp [node, head, Node.places, Node.kind, hterms, optional, List.flatMap_map, tag, NodeKind.all]

/-- The same syntax is written alike. -/
theorem term_eq_of_same {t t' : Term} (h : t.Same t') : term t = term t' := by
  induction h with
  | @node id id' content content' hshape _ ih =>
    have hmap := Node.map_eq_of_zip hshape ih
    have hhead := congrArg head hmap
    have hplaces := congrArg (fun n => n.places.flatMap fun place => place.getD [absent]) hmap
    have hoptional (place : Option Term) : (place.map term).getD [absent] = optional place := by
      cases place <;> simp [optional]
    simp only [Node.places_map, List.flatMap_map, hoptional] at hplaces
    rw [head_map, head_map] at hhead
    rw [term, term, node_eq, node_eq, Node.kind_of_shape_eq hshape, hhead, hplaces]

theorem tag_injective : Function.Injective tag :=
  injective_of_all NodeKind.all (fun k => by cases k <;> decide) (by decide)

theorem tag_ne_absent (kind : NodeKind) : tag kind ≠ absent := by cases kind <;> decide

/-- What stands between tag and children can be read off: nodes of one kind with the same places taken have the
same shape. -/
theorem head_inj {n n' : Node α} (hn : n.Short) (hn' : n'.Short) (hkind : n.kind = n'.kind)
    (h : head n ++ rest = head n' ++ rest') :
    rest = rest' ∧ n.places.length = n'.places.length ∧
      (n.places.map Option.isSome = n'.places.map Option.isSome → n.shape = n'.shape) := by
  have hoption {place place' : Option α} (hsome : place.isSome = place'.isSome) :
      place.map (fun _ => ()) = place'.map fun _ => () := by
    cases place <;> cases place' <;> simp_all
  cases n <;> cases n' <;> try cases hkind
  case block.block | pack.pack =>
    obtain ⟨hlength, hrest⟩ := length_inj hn.children hn'.children h
    exact ⟨hrest, by simpa [Node.places] using hlength,
      fun _ => by simpa [Node.shape] using hlength⟩
  case call.call =>
    rw [head, head, List.append_assoc, List.append_assoc] at h
    obtain ⟨rfl, htail⟩ := text_inj (hn.texts _ List.mem_cons_self) (hn'.texts _ List.mem_cons_self) h
    obtain ⟨hlength, hrest⟩ := length_inj hn.children hn'.children htail
    exact ⟨hrest, by simpa [Node.places] using hlength,
      fun _ => by simpa [Node.shape] using hlength⟩
  case loop.loop =>
    obtain ⟨hloop, hrest⟩ := List.cons.inj h
    refine ⟨hrest, rfl, fun hsome => ?_⟩
    simp only [Node.places, List.map_cons, List.map_nil, List.cons.injEq, and_true] at hsome
    simp only [Node.shape, Node.map_loop, loopKind_injective hloop, hoption hsome.1, hoption hsome.2.1, hoption hsome.2.2.1]
  case declare.declare =>
    obtain ⟨rfl, hrest⟩ := ty_inj h
    refine ⟨hrest, rfl, fun hsome => ?_⟩
    simp only [Node.places, List.map_cons, List.map_nil, List.cons.injEq, and_true] at hsome
    simp only [Node.shape, Node.map_declare, hoption hsome.2]
  case unpack.unpack =>
    refine ⟨h, rfl, fun hsome => ?_⟩
    simp only [Node.places, List.map_cons, List.map_nil, List.cons.injEq, and_true] at hsome
    simp only [Node.shape, Node.map_unpack, hoption hsome.2.2]
  case conditional.conditional => exact ⟨h, rfl, fun _ => rfl⟩
  case binary.binary =>
    obtain ⟨hop, hrest⟩ := List.cons.inj h
    obtain rfl := binaryOp_injective hop
    exact ⟨hrest, rfl, fun _ => rfl⟩
  case unary.unary =>
    obtain ⟨hop, hrest⟩ := List.cons.inj h
    obtain rfl := unaryOp_injective hop
    exact ⟨hrest, rfl, fun _ => rfl⟩
  case crement.crement =>
    obtain ⟨hop, htail⟩ := List.cons.inj h
    obtain ⟨hpost, hrest⟩ := List.cons.inj htail
    obtain rfl := flag_injective hpost
    obtain rfl := crementOp_injective hop
    exact ⟨hrest, rfl, fun _ => rfl⟩
  case assign.assign =>
    obtain ⟨hop, hrest⟩ := List.cons.inj h
    obtain rfl := compound_injective hop
    exact ⟨hrest, rfl, fun _ => rfl⟩
  case cast.cast =>
    obtain ⟨rfl, hrest⟩ := ty_inj h
    exact ⟨hrest, rfl, fun _ => rfl⟩
  case jump.jump =>
    obtain ⟨hword, hrest⟩ := List.cons.inj h
    obtain rfl := jump_injective hword
    exact ⟨hrest, rfl, fun _ => rfl⟩
  case value.value =>
    obtain ⟨rfl, hrest⟩ := literal_inj (fun s hs => hn.texts s (by simp [hs, Node.texts]))
      (fun s hs => hn'.texts s (by simp [hs, Node.texts])) h
    exact ⟨hrest, rfl, fun _ => rfl⟩
  case localName.localName =>
    obtain ⟨rfl, hrest⟩ := text_inj (hn.texts _ List.mem_cons_self) (hn'.texts _ List.mem_cons_self) h
    exact ⟨hrest, rfl, fun _ => rfl⟩
  case field.field =>
    rw [head, head, List.append_assoc, List.append_assoc, List.append_assoc, List.append_assoc] at h
    obtain ⟨rfl, htail⟩ := text_inj (hn.texts _ List.mem_cons_self) (hn'.texts _ List.mem_cons_self) h
    obtain ⟨rfl, hflags⟩ := ty_inj htail
    obtain ⟨hinferred, hflags'⟩ := List.cons.inj hflags
    obtain ⟨hwritable, hrest⟩ := List.cons.inj hflags'
    obtain rfl := flag_injective hinferred
    obtain rfl := flag_injective hwritable
    exact ⟨hrest, rfl, fun _ => rfl⟩
  case external.external =>
    rw [head, head, List.append_assoc, List.append_assoc] at h
    obtain ⟨rfl, htail⟩ := text_inj (hn.texts _ List.mem_cons_self) (hn'.texts _ List.mem_cons_self) h
    obtain ⟨rfl, hrest⟩ := ty_inj htail
    exact ⟨hrest, rfl, fun _ => rfl⟩

/-- A term that was written, and whose lengths can be read off. -/
structure Written (t : Term) : Prop where
  complete : t.Complete
  short : t.Everywhere Node.Short

theorem Written.below {id : NodeId} {content : Node Term} (h : Written (.node id content)) {c : Term}
    (hc : c ∈ content.children) : Written c := ⟨h.complete.below hc, h.short.below hc⟩

/-- A written term begins with a tag. -/
theorem Written.exists_tag {t : Term} (h : Written t) : ∃ kind bytes, term t = tag kind :: bytes := by
  cases t with
  | missing id => exact absurd h.complete Term.Complete.not_missing
  | node id content => exact ⟨_, _, by rw [term, node_eq]⟩

/-- What stands in the same number of places can be read off, if each of the first terms can. -/
theorem places_inj {places places' : List (Option Term)} (hlength : places.length = places'.length)
    (hwritten : ∀ t, some t ∈ places → Written t) (hwritten' : ∀ t, some t ∈ places' → Written t)
    (hinj : ∀ t, some t ∈ places → ∀ t' rest rest', Written t' → term t ++ rest = term t' ++ rest' →
      t.Same t' ∧ rest = rest')
    (h : places.flatMap optional ++ rest = places'.flatMap optional ++ rest') :
    List.Forall₂ (Option.Rel Term.Same) places places' ∧ rest = rest' := by
  induction places generalizing places' with
  | nil =>
    obtain rfl := List.length_eq_zero_iff.mp hlength.symm
    exact ⟨.nil, h⟩
  | cons place places ih =>
    cases places' with
    | nil => cases hlength
    | cons place' places' =>
      rw [List.flatMap_cons, List.flatMap_cons, List.append_assoc, List.append_assoc] at h
      have hrest := ih (Nat.succ.inj hlength) (fun t ht => hwritten t (List.mem_cons_of_mem _ ht))
        (fun t ht => hwritten' t (List.mem_cons_of_mem _ ht)) fun t ht => hinj t (List.mem_cons_of_mem _ ht)
      -- a mark for what is absent is no tag
      cases place with
      | none =>
        cases place' with
        | none =>
          obtain ⟨hplaces, heq⟩ := hrest (List.cons.inj h).2
          exact ⟨.cons .none hplaces, heq⟩
        | some t' =>
          obtain ⟨kind, bytes, htag⟩ := (hwritten' t' List.mem_cons_self).exists_tag
          rw [optional, optional, htag] at h
          exact absurd (List.cons.inj h).1.symm (tag_ne_absent kind)
      | some t =>
        cases place' with
        | none =>
          obtain ⟨kind, bytes, htag⟩ := (hwritten t List.mem_cons_self).exists_tag
          rw [optional, optional, htag] at h
          exact absurd (List.cons.inj h).1 (tag_ne_absent kind)
        | some t' =>
          obtain ⟨hsame, h⟩ := hinj t List.mem_cons_self t' _ _ (hwritten' t' List.mem_cons_self) h
          obtain ⟨hplaces, heq⟩ := hrest h
          exact ⟨.cons (.some hsame) hplaces, heq⟩

/-- Places that hold related terms are taken alike, and so are the terms in them. -/
theorem forall₂_places {R : Term → Term → Prop} {places places' : List (Option Term)}
    (h : List.Forall₂ (Option.Rel R) places places') : places.map Option.isSome = places'.map Option.isSome ∧
      List.Forall₂ R (places.flatMap Option.toList) (places'.flatMap Option.toList) := by
  induction h with
  | nil => exact ⟨rfl, .nil⟩
  | cons hplace _ ih =>
    cases hplace with
    | none => exact ⟨congrArg (false :: ·) ih.1, ih.2⟩
    | some hR => exact ⟨congrArg (true :: ·) ih.1, .cons hR ih.2⟩

/-- A written term can be read off whatever follows it, up to the names of its nodes. -/
theorem term_inj (t : Term) : ∀ t' rest rest', Written t → Written t' → term t ++ rest = term t' ++ rest' →
    t.Same t' ∧ rest = rest' := by
  induction t using Term.children_induction with
  | missing id => exact fun _ _ _ h => absurd h.complete Term.Complete.not_missing
  | node id content ih =>
    intro t' rest rest' h h' heq
    cases t' with
    | missing id' => exact absurd h'.complete Term.Complete.not_missing
    | node id' content' =>
      have hchild {content : Node Term} {t : Term} (ht : some t ∈ content.places) : t ∈ content.children := by
        rw [content.children_eq_places]
        exact List.mem_flatMap.mpr ⟨_, ht, Option.mem_toList.mpr rfl⟩
      rw [term, term, node_eq, node_eq, List.cons_append, List.cons_append, List.append_assoc, List.append_assoc] at heq
      obtain ⟨htag, heq⟩ := List.cons.inj heq
      obtain ⟨heq, hlength, hshape⟩ := head_inj h.short.here h'.short.here (tag_injective htag) heq
      obtain ⟨hplaces, hrest⟩ := places_inj hlength (fun t ht => h.below (hchild ht)) (fun t ht => h'.below (hchild ht))
        (fun t ht t' rest rest' => ih t (hchild ht) t' rest rest' (h.below (hchild ht))) heq
      obtain ⟨htaken, hsame⟩ := forall₂_places hplaces
      rw [← Node.children_eq_places, ← Node.children_eq_places] at hsame
      exact ⟨.node (hshape htaken) fun c c' hcc' => (List.forall₂_iff_zip.mp hsame).2 hcc', hrest⟩

end Encoding

/-- Two programs that calls can make, with texts and lists of children of lengths that fit into four bytes, are
written alike exactly if they are the same syntax, however their arenas are laid out. -/
theorem Tree.Reachable.program_eq_iff_same {t t' : Tree} (h : Reachable t) (h' : Reachable t')
    (hshort : t.program.Everywhere Node.Short) (hshort' : t'.program.Everywhere Node.Short) :
    Encoding.program t.program = Encoding.program t'.program ↔ t.program.Same t'.program := by
  have hcomplete {t : Tree} (h : Reachable t) : t.program.Complete := by
    obtain ⟨hlinked, hrooted⟩ := h.linked_rooted
    exact hlinked.complete_term hrooted.grounded hrooted.live
  constructor
  · intro heq
    have hterm : Encoding.term t.program ++ [] = Encoding.term t'.program ++ [] := by
      rw [List.append_nil, List.append_nil]
      exact (List.cons.inj heq).2
    exact (Encoding.term_inj _ _ _ _ ⟨hcomplete h, hshort⟩ ⟨hcomplete h', hshort'⟩ hterm).1
  · intro hsame
    rw [Encoding.program, Encoding.program, Encoding.term_eq_of_same hsame]

/-- A statement and another that replaced it: two arenas, one syntax, one list of bytes. -/
theorem Tree.Reachable.program_eq_iff_same_replaced :
    let t := [Call.add (.block []), .pushStatement 0 1].foldl Call.after (.empty 0)
    let t' := [Call.add (.block []), .pushStatement 0 1, .add (.block []), .replace 1 2].foldl Call.after (.empty 0)
    (Reachable t ∧ Reachable t') ∧ (t.program.Everywhere Node.Short ∧ t'.program.Everywhere Node.Short) ∧
      t.preorder ≠ t'.preorder ∧ Encoding.program t.program = Encoding.program t'.program ∧ t.program.Same t'.program := by
  intro t t'
  have ht : Reachable t := (Reachable.empty 0).calls (by simp [Call.Permitted])
  have ht' : Reachable t' := (Reachable.empty 0).calls (by simp [Call.Permitted])
  have hblock (id : NodeId) (terms : List Term) (hlength : terms.length < 4294967296)
      (hterms : ∀ c ∈ terms, c.Everywhere Node.Short) : (Term.node id (.block terms)).Everywhere Node.Short :=
    .of_children ⟨by simp [Node.texts], hlength⟩ hterms
  have hshort : t.program.Everywhere Node.Short :=
    hblock 0 [.node 1 (.block [])] (by decide) (by simpa using hblock 1 [] (by decide) (by simp))
  have hshort' : t'.program.Everywhere Node.Short :=
    hblock 0 [.node 2 (.block [])] (by decide) (by simpa using hblock 2 [] (by decide) (by simp))
  have hbytes : Encoding.program t.program = Encoding.program t'.program := by decide
  exact ⟨⟨ht, ht'⟩, ⟨hshort, hshort'⟩, by decide, hbytes, (program_eq_iff_same ht ht' hshort hshort').mp hbytes⟩

end Elementwise
