import Elementwise.Proofs.Registry.Build
import Mathlib.Data.List.Induction

/-!
# What a registry records

The registry that uses of fields make, said without the order in which it was made: the names in the order
of their first uses, each with the type of the first use and writable if any use is. A use is reported if
its target cannot have it, or if it is at odds with the first one of its name.
-/

namespace Elementwise

namespace FieldUse

/-- A target can have the field: a volume holds numbers. -/
def fits (target : Target) (u : FieldUse) : Bool := target = .volumes → u.ty.isNumeric = true

/-- The type of the first use of a name. -/
def firstTy? (uses : List FieldUse) (name : String) : Option Ty := (uses.find? (·.name == name)).map FieldUse.ty

/-- What is wrong with a use among the uses that fit the target. -/
def complaint? (target : Target) (spanOf : NodeId → Option Span) (uses : List FieldUse) (u : FieldUse) :
    Option Diagnostic :=
  if u.fits target then
    (firstTy? uses u.name).bind fun first =>
      if first = u.ty then none else some (u.conflict target first (spanOf u.id))
  else some (u.notAGrid (spanOf u.id))

variable {target : Target} {spanOf : NodeId → Option Span} {uses more : List FieldUse} {u : FieldUse} {name : String}

/-- Later uses do not change the type of the first one. -/
theorem firstTy?_append {ty : Ty} (h : firstTy? uses name = some ty) : firstTy? (uses ++ more) name = some ty := by
  obtain ⟨first, hfirst, hty⟩ := Option.map_eq_some_iff.mp h
  rw [firstTy?, List.find?_append, hfirst, Option.some_or, Option.map_some, hty]

/-- Without earlier uses of its name, a use is the first one. -/
theorem firstTy?_concat (h : u.name ∉ uses.map FieldUse.name) : firstTy? (uses ++ [u]) u.name = some u.ty := by
  have hnone : uses.find? (·.name == u.name) = none :=
    List.find?_eq_none.mpr fun v hv heq => h (List.mem_map.mpr ⟨v, hv, beq_iff_eq.mp heq⟩)
  rw [firstTy?, List.find?_append, hnone]
  simp

/-- A name that is used has a first use. -/
theorem exists_firstTy? (h : u ∈ uses) : ∃ ty, firstTy? uses u.name = some ty := by
  rw [← Option.isSome_iff_exists, firstTy?, Option.isSome_map, List.find?_isSome]
  exact ⟨u, h, beq_self_eq_true _⟩

/-- What is wrong with a use does not depend on later uses. -/
theorem complaint?_append (h : u.fits target = true → u ∈ uses) :
    complaint? target spanOf (uses ++ more) u = complaint? target spanOf uses u := by
  unfold complaint?
  split
  · next hfits =>
    obtain ⟨ty, hty⟩ := exists_firstTy? (h hfits)
    rw [hty, firstTy?_append hty]
  · rfl

variable (target spanOf)

/-- What is wrong with a use: its target cannot have it, or it is at odds with the first use of its name. -/
theorem complaint?_cases (h : u ∈ uses) :
    (u.fits target = false ∧
      complaint? target spanOf (uses.filter (fits target)) u = some (u.notAGrid (spanOf u.id))) ∨
    (u.fits target = true ∧ ∃ first, firstTy? (uses.filter (fits target)) u.name = some first ∧
      complaint? target spanOf (uses.filter (fits target)) u =
        if first = u.ty then none else some (u.conflict target first (spanOf u.id))) := by
  unfold complaint?
  cases hfits : u.fits target with
  | false => exact .inl ⟨rfl, rfl⟩
  | true =>
    obtain ⟨first, hfirst⟩ := exists_firstTy? (List.mem_filter.mpr ⟨h, hfits⟩)
    exact .inr ⟨rfl, first, hfirst, by rw [if_pos rfl, hfirst, Option.bind_some]⟩

/-- The error of a use at odds with an earlier one is a conflict of types. -/
theorem conflict_error (u : FieldUse) (first : Ty) (span : Option Span) :
    (u.conflict target first span).severity = .error ∧ (u.conflict target first span).kind = .typeConflict := by
  unfold conflict
  split <;> exact ⟨rfl, rfl⟩

/-- The diagnostics about uses, those that the target can have being told apart from the others. -/
def complaints (target : Target) (spanOf : NodeId → Option Span) (uses : List FieldUse) : List Diagnostic :=
  uses.filterMap (complaint? target spanOf (uses.filter (fits target)))

/-- Whatever is reported about uses is an error of one of two kinds. -/
theorem error_of_mem_complaints {target : Target} {spanOf : NodeId → Option Span} {d : Diagnostic}
    (h : d ∈ complaints target spanOf uses) :
    d.severity = .error ∧ (d.kind = .typeConflict ∨ d.kind = .semantic) := by
  obtain ⟨u, hu, hd⟩ := List.mem_filterMap.mp h
  rcases complaint?_cases target spanOf hu with ⟨-, heq⟩ | ⟨-, first, -, heq⟩
  · obtain rfl := Option.some.inj (heq.symm.trans hd)
    exact ⟨rfl, .inr rfl⟩
  · rw [heq] at hd
    split at hd
    · cases hd
    · obtain rfl := Option.some.inj hd
      obtain ⟨hseverity, hkind⟩ := conflict_error target u first (spanOf u.id)
      exact ⟨hseverity, .inl hkind⟩

variable (uses)

/-- There is one conflict for each use at odds with the first of its name. -/
theorem countP_conflict : (complaints target spanOf uses).countP (·.kind = .typeConflict) =
    (uses.filter (fits target)).countP fun u => firstTy? (uses.filter (fits target)) u.name ≠ some u.ty := by
  rw [complaints, List.countP_filterMap, List.countP_filter]
  refine List.countP_congr fun u hu => ?_
  rcases complaint?_cases target spanOf hu with ⟨hfits, heq⟩ | ⟨hfits, first, hfirst, heq⟩
  · rw [heq]
    simp [hfits, notAGrid, Diagnostic.error]
  · rw [heq, hfirst]
    have hkind := (conflict_error target u first (spanOf u.id)).2
    by_cases hty : first = u.ty <;> simp [hfits, hty, hkind]

/-- There is one error of another kind for each use that the target cannot have. -/
theorem countP_notAGrid :
    (complaints target spanOf uses).countP (·.kind = .semantic) = uses.countP fun u => !u.fits target := by
  rw [complaints, List.countP_filterMap]
  refine List.countP_congr fun u hu => ?_
  rcases complaint?_cases target spanOf hu with ⟨hfits, heq⟩ | ⟨hfits, first, -, heq⟩
  · rw [heq]
    simp [hfits, notAGrid, Diagnostic.error]
  · rw [heq]
    have hkind := (conflict_error target u first (spanOf u.id)).2
    by_cases hty : first = u.ty <;> simp [hfits, hty, hkind]

/-- Each diagnostic about uses is of one of the two kinds. -/
theorem length_complaints : (complaints target spanOf uses).length =
    (complaints target spanOf uses).countP (·.kind = .typeConflict) +
      (complaints target spanOf uses).countP (·.kind = .semantic) := by
  rw [List.length_eq_countP_add_countP (·.kind = .typeConflict)]
  congr 1
  refine List.countP_congr fun d hd => ?_
  rcases (error_of_mem_complaints hd).2 with hkind | hkind <;> simp [hkind]

end FieldUse

namespace Registry

open FieldUse

/-- What a registry holds after uses were recorded in it. -/
structure Records (r : Registry) (uses : List FieldUse) : Prop where
  names : r.entries.names = (uses.map FieldUse.name).eraseDups
  numbered : r.Numbered
  entry : ∀ name e, r.get? name = some e → e.name = name ∧ firstTy? uses name = some e.ty ∧
    (e.writable = true ↔ ∃ u ∈ uses, u.name = name ∧ u.writable = true)

variable {r : Registry} {uses : List FieldUse}

namespace Records

theorem nil (target : Target) : Records { target } [] :=
  ⟨rfl, fun i name e h => by simp [Table.at?] at h, fun name e h => by simp [get?, Table.get?] at h⟩

/-- No name stands twice. -/
theorem nodup (h : r.Records uses) : r.entries.names.Nodup := by
  rw [h.names]
  generalize uses.map FieldUse.name = names
  induction names using List.reverseRecOn with
  | nil => exact List.nodup_nil
  | append_singleton names name ih =>
    rw [List.eraseDups_append]
    by_cases hmem : name ∈ names
    · simpa [List.removeAll, hmem] using ih
    · simpa [List.removeAll, List.eraseDups_cons, hmem, List.nodup_append] using
        ⟨ih, fun other hother heq => hmem (heq ▸ hother)⟩

/-- The entry in a slot is what its own name gives. -/
theorem get?_of_at? (h : r.Records uses) {i : Nat} {e : Entry} (he : r.at? i = some e) :
    r.entries.at? i = some (e.name, e) ∧ r.get? e.name = some e ∧ e.index = i := by
  obtain ⟨⟨name, e'⟩, hat, rfl⟩ := Option.map_eq_some_iff.mp he
  have hget : r.get? name = some e' := Table.get?_of_at? h.nodup hat
  obtain rfl := (h.entry name e' hget).1
  exact ⟨hat, hget, h.numbered i _ e' hat⟩

/-- The names of the entries are the names that they stand under. -/
theorem list_names (h : r.Records uses) : r.list.map Entry.name = r.entries.names := by
  apply List.ext_getElem?
  intro i
  rw [list, Table.values, Table.names, List.map_map, List.getElem?_map, List.getElem?_map]
  cases hat : r.entries.entries[i]? with
  | none => rfl
  | some entry =>
    have he : r.at? i = some entry.2 := congrArg (Option.map Prod.snd) hat
    have hname := Option.some.inj (hat.symm.trans (h.get?_of_at? he).1)
    exact congrArg some (congrArg Prod.fst hname).symm

/-- A name without an entry was not used. -/
theorem not_used (h : r.Records uses) {name : String} (hget : r.get? name = none) : name ∉ uses.map FieldUse.name := by
  intro hused
  have hmem : name ∈ r.entries.names := by rwa [h.names, List.mem_eraseDups]
  obtain ⟨e, he⟩ := Table.mem_names_iff.mp hmem
  exact absurd (hget.symm.trans he) (by simp)

/-- The entry that a use is recorded in: what its name has, or a new one of its own type. -/
theorem entry_getD (h : r.Records uses) (u : FieldUse) {e : Entry}
    (he : (r.get? u.name).getD ⟨u.name, u.ty, false, r.size⟩ = e) :
    e.name = u.name ∧ firstTy? (uses ++ [u]) u.name = some e.ty ∧
      (e.writable = true ↔ ∃ v ∈ uses, v.name = u.name ∧ v.writable = true) := by
  cases hold : r.get? u.name with
  | none =>
    have hnew := h.not_used hold
    obtain rfl : ⟨u.name, u.ty, false, r.size⟩ = e := by rwa [hold] at he
    refine ⟨rfl, firstTy?_concat hnew, nofun, ?_⟩
    rintro ⟨v, hv, hname, -⟩
    exact absurd (List.mem_map.mpr ⟨v, hv, hname⟩) hnew
  | some old =>
    obtain rfl : old = e := by rwa [hold] at he
    obtain ⟨hname, hty, hwritable⟩ := h.entry _ _ hold
    exact ⟨hname, firstTy?_append hty, hwritable⟩

/-- One more use. -/
theorem register (h : r.Records uses) (u : FieldUse) :
    (r.register u.name u.ty u.writable).2.Records (uses ++ [u]) := by
  refine ⟨?_, h.numbered.register _ _ _, fun name e hget => ?_⟩
  · rw [Registry.register, Table.names_insert, List.map_append, List.eraseDups_append, h.names]
    generalize uses.map FieldUse.name = names
    by_cases hmem : u.name ∈ names <;> simp [List.removeAll, List.eraseDups_cons, hmem]
  · rw [Registry.register, get?, Table.get?_insert] at hget
    by_cases hname : name = u.name
    · subst hname
      obtain ⟨hentry, hty, hwritable⟩ := h.entry_getD u rfl
      rw [if_pos rfl] at hget
      obtain rfl := Option.some.inj hget
      refine ⟨hentry, hty, ?_⟩
      simp only [Bool.or_eq_true, hwritable, List.mem_append, List.mem_singleton, or_and_right, exists_or,
        exists_eq_left, true_and]
    · rw [if_neg hname] at hget
      obtain ⟨hentry, hty, hwritable⟩ := h.entry name e hget
      refine ⟨hentry, firstTy?_append hty, ?_⟩
      simp only [hwritable, List.mem_append, List.mem_singleton, or_and_right, exists_or, exists_eq_left,
        Ne.symm hname, false_and, or_false]

end Records

/-- One use is recorded if the target can have it, and reported if anything is wrong with it. -/
theorem addUse_records (spanOf : NodeId → Option Span) (h : r.Records uses) (sink : Sink) (u : FieldUse) :
    (addUse spanOf (r, sink) u).1.Records (uses ++ [u].filter (fits r.target)) ∧ (addUse spanOf (r, sink) u).2 =
      sink.extend (complaint? r.target spanOf (uses ++ [u].filter (fits r.target)) u).toList := by
  rw [List.filter_singleton]
  cases hfits : u.fits r.target with
  | false =>
    have hgrid : (decide (r.target = .volumes) && !u.ty.isNumeric) = true := by simpa [fits] using hfits
    simp only [addUse, hgrid, if_true, complaint?, hfits, Bool.false_eq_true, if_false]
    exact ⟨by simpa using h, rfl⟩
  | true =>
    have hgrid : (decide (r.target = .volumes) && !u.ty.isNumeric) = false := by
      simpa [fits, imp_iff_not_or] using hfits
    obtain ⟨-, hfirst, -⟩ := h.entry_getD u rfl
    have hrecords := h.register u
    rw [complaint?, if_pos hfits, cond_true, hfirst, Option.bind_some]
    simp only [addUse, hgrid, Bool.false_eq_true, if_false, Registry.register]
    by_cases hty : ((r.get? u.name).getD ⟨u.name, u.ty, false, r.size⟩).ty = u.ty
    · rw [if_pos hty, if_pos hty]
      exact ⟨hrecords, rfl⟩
    · rw [if_neg hty, if_neg hty]
      exact ⟨hrecords, rfl⟩

/-- Uses one after another: those that the target can have are recorded, and there is one diagnostic for each
that something is wrong with among them all. -/
theorem foldl_addUse_records (spanOf : NodeId → Option Span) (seen : List FieldUse)
    (h : r.Records (seen.filter (fits r.target))) (sink : Sink) (uses : List FieldUse) :
    (uses.foldl (addUse spanOf) (r, sink)).1.Records ((seen ++ uses).filter (fits r.target)) ∧
      (uses.foldl (addUse spanOf) (r, sink)).2 =
        sink.extend (uses.filterMap (complaint? r.target spanOf ((seen ++ uses).filter (fits r.target)))) := by
  induction uses generalizing seen r sink with
  | nil => exact ⟨by simpa using h, rfl⟩
  | cons u rest ih =>
    have htarget := (addUse_keeps spanOf h.numbered sink u).2.1
    obtain ⟨hrecords, hsink⟩ := addUse_records spanOf h sink u
    rw [← List.filter_append] at hrecords hsink
    obtain ⟨hrest, hsinkRest⟩ := ih (seen ++ [u]) (htarget ▸ hrecords) (addUse spanOf (r, sink) u).2
    rw [htarget, List.append_assoc, List.singleton_append] at hrest hsinkRest
    refine ⟨hrest, ?_⟩
    -- what is wrong with the first use is the same among all of them
    have hcomplaint : complaint? r.target spanOf ((seen ++ u :: rest).filter (fits r.target)) u =
        complaint? r.target spanOf ((seen ++ [u]).filter (fits r.target)) u := by
      rw [← List.singleton_append, ← List.append_assoc, List.filter_append]
      exact complaint?_append fun hfits => by simp [hfits]
    rw [List.foldl_cons, hsinkRest, hsink, List.filterMap_cons, hcomplaint]
    cases complaint? r.target spanOf ((seen ++ [u]).filter (fits r.target)) u <;> rfl

/-- The registry of a program records the uses in it that the target can have, and what is wrong with any of
them is reported. -/
theorem build_records (t : Tree) (target : Target) (map : SourceMap) (sink : Sink) :
    (build t target map sink).1.Records ((t.program.fieldUses false).filter (fits target)) ∧
      (build t target map sink).2 = sink.extend (complaints target (map.lookup t) (t.program.fieldUses false)) := by
  rw [build_eq]
  exact foldl_addUse_records (map.lookup t) [] (Records.nil target) sink (t.program.fieldUses false)

end Registry

end Elementwise
