import Elementwise.Table
import Mathlib.Data.List.Basic

/-!
# Lookup in tables

What a name gives is an entry at some position, and an insertion changes one position: that of the name,
or the first free one.
-/

namespace Elementwise.Table

variable {α : Type} {t : Table α} {name other : String} {a x : α} {i : Nat}

/-- The entry of a name stands at some position. -/
theorem exists_at?_of_get? (h : t.get? name = some a) : ∃ i, t.at? i = some (name, a) := by
  obtain ⟨before, after, heq, -⟩ := List.lookup_eq_some_iff.mp h
  exact ⟨before.length, by simp [at?, heq]⟩

/-- The position of a name holds its entry. -/
theorem at?_of_index? (h : t.index? name = some i) : ∃ a, t.at? i = some (name, a) ∧ t.get? name = some a := by
  obtain ⟨hlt, hname, hbefore⟩ := List.findIdx?_eq_some_iff_getElem.mp h
  have hentry : t.entries[i] = (name, t.entries[i].2) := Prod.ext (beq_iff_eq.mp hname) rfl
  refine ⟨t.entries[i].2, ?_, List.lookup_eq_some_iff.mpr ⟨t.entries.take i, t.entries.drop (i + 1), ?_, ?_⟩⟩
  · exact List.getElem?_eq_some_iff.mpr ⟨hlt, hentry⟩
  · rw [← hentry, List.getElem_cons_drop, List.take_append_drop]
  · intro entry hentry
    obtain ⟨j, hj, rfl⟩ := List.mem_take_iff_getElem.mp hentry
    exact bne_iff_ne.mpr fun heq => hbefore j (by omega) (beq_iff_eq.mpr heq.symm)

/-- A name without a position has no entry. -/
theorem get?_eq_none_of_index? (h : t.index? name = none) : t.get? name = none := by
  refine List.lookup_eq_none_iff.mpr fun entry hentry => ?_
  exact bne_iff_ne.mpr fun heq => beq_eq_false_iff_ne.mp (List.findIdx?_eq_none_iff.mp h entry hentry) heq.symm

/-- What a name gives is what stands at its position. -/
theorem get?_eq_bind_index? (t : Table α) (name : String) :
    t.get? name = (t.index? name).bind fun i => (t.at? i).map Prod.snd := by
  cases hi : t.index? name with
  | none => exact get?_eq_none_of_index? hi
  | some i =>
    obtain ⟨a, hat, hget⟩ := at?_of_index? hi
    rw [hget, Option.bind_some, hat, Option.map_some]

/-- Two names have different positions. -/
theorem index?_inj (h : t.index? name = some i) (h' : t.index? other = some i) : name = other := by
  obtain ⟨a, hat, -⟩ := at?_of_index? h
  obtain ⟨b, hat', -⟩ := at?_of_index? h'
  exact congrArg Prod.fst (Option.some.inj (hat.symm.trans hat'))

/-- Positions depend on the names alone. -/
theorem index?_eq_names (t : Table α) (name : String) : t.index? name = t.names.findIdx? (· == name) := by
  rw [index?, names, List.findIdx?_map]
  rfl

theorem mem_names_of_at? (h : t.at? i = some (name, a)) : name ∈ t.names :=
  List.mem_map.mpr ⟨_, List.mem_of_getElem? h, rfl⟩

/-- The names that are there are those that have an entry. -/
theorem mem_names_iff : name ∈ t.names ↔ ∃ a, t.get? name = some a := by
  constructor
  · intro h
    obtain ⟨entry, hentry, rfl⟩ := List.mem_map.mp h
    refine Option.ne_none_iff_exists'.mp fun hnone => ?_
    exact bne_iff_ne.mp (List.lookup_eq_none_iff.mp hnone entry hentry) rfl
  · rintro ⟨a, ha⟩
    obtain ⟨i, hi⟩ := exists_at?_of_get? ha
    exact mem_names_of_at? hi

/-- A name that is not there has no position. -/
theorem index?_eq_none_iff : t.index? name = none ↔ name ∉ t.names := by
  rw [index?_eq_names, List.findIdx?_eq_none_iff]
  constructor
  · intro h hmem
    simpa using h name hmem
  · intro h other hother
    exact beq_eq_false_iff_ne.mpr fun heq => h (heq ▸ hother)

/-- What stands at a position after an entry was changed. -/
theorem at?_modifyAt (t : Table α) (i j : Nat) (f : α → α) : (t.modifyAt i f).at? j =
    if i = j then (t.at? j).map fun entry => (entry.1, f entry.2) else t.at? j := by
  rw [modifyAt, at?, List.getElem?_modify]
  by_cases hij : i = j <;> simp [hij, at?]

/-- Tables whose entries have the same names at every index. -/
theorem names_congr {t t' : Table α} (h : ∀ i, (t'.at? i).map Prod.fst = (t.at? i).map Prod.fst) :
    t'.names = t.names := by
  apply List.ext_getElem?
  intro i
  rw [names, List.getElem?_map, names, List.getElem?_map]
  exact h i

/-- Changing an entry keeps the names. -/
theorem names_modifyAt (t : Table α) (i : Nat) (f : α → α) : (t.modifyAt i f).names = t.names := by
  apply names_congr
  intro j
  rw [at?_modifyAt]
  by_cases hij : i = j <;> simp [hij, Function.comp_def]

/-- An insertion keeps the names in order, with a new one at the end. -/
theorem names_insert : (t.insert name a).names = if name ∈ t.names then t.names else t.names ++ [name] := by
  cases hi : t.index? name with
  | some i =>
    obtain ⟨b, -, hget⟩ := at?_of_index? hi
    rw [Table.insert, hi, if_pos (mem_names_iff.mpr ⟨b, hget⟩)]
    exact names_modifyAt t i _
  | none =>
    rw [Table.insert, hi, if_neg (by rw [mem_names_iff, get?_eq_none_of_index? hi]; simp)]
    simp [names]

/-- What a name gives after an insertion. -/
theorem get?_insert : (t.insert name a).get? other = if other = name then some a else t.get? other := by
  cases hi : t.index? name with
  | some i =>
    obtain ⟨hlt, hname, hbefore⟩ := List.findIdx?_eq_some_iff_getElem.mp hi
    have hfirst : (t.entries.take i).lookup name = none := by
      refine List.lookup_eq_none_iff.mpr fun entry hentry => ?_
      obtain ⟨j, hj, rfl⟩ := List.mem_take_iff_getElem.mp hentry
      exact bne_iff_ne.mpr fun heq => hbefore j (by omega) (beq_iff_eq.mpr heq.symm)
    have hentries : t.entries = t.entries.take i ++ (name, t.entries[i].2) :: t.entries.drop (i + 1) := by
      rw [← beq_iff_eq.mp hname, List.getElem_cons_drop, List.take_append_drop]
    have hinsert : (t.insert name a).entries = t.entries.take i ++ (name, a) :: t.entries.drop (i + 1) := by
      simp only [Table.insert, hi, modifyAt, List.modify_eq_take_cons_drop hlt, beq_iff_eq.mp hname]
    rw [get?, hinsert, get?, List.lookup_append]
    by_cases hother : other = name
    · subst hother
      simp [hfirst]
    · rw [if_neg hother]
      nth_rw 3 [hentries]
      simp [List.lookup_append, List.lookup_cons, beq_eq_false_iff_ne.mpr hother]
  | none =>
    have hget := get?_eq_none_of_index? hi
    rw [Table.insert, hi, get?, List.lookup_append]
    by_cases hother : other = name
    · subst hother
      rw [get?] at hget
      simp [hget]
    · simp [get?, List.lookup_cons, hother, beq_eq_false_iff_ne.mpr hother]

/-- Where no name stands twice, an entry is what its name gives. -/
theorem get?_of_at? (hnodup : t.names.Nodup) (h : t.at? i = some (name, a)) : t.get? name = some a := by
  obtain ⟨b, hb⟩ := mem_names_iff.mp (mem_names_of_at? h)
  obtain ⟨j, hj⟩ := exists_at?_of_get? hb
  have hname (k : Nat) (b : α) (hk : t.at? k = some (name, b)) : t.names[k]? = some name := by
    rw [names, List.getElem?_map]
    exact congrArg (Option.map Prod.fst) hk
  obtain rfl : i = j := by
    have hlt := (List.getElem?_eq_some_iff.mp (hname i a h)).1
    exact (List.getElem?_inj hlt hnodup).mp ((hname i a h).trans (hname j b hj).symm)
  rw [hb]
  exact congrArg (Option.map Prod.snd) (hj.symm.trans h)

/-- What an insertion changes: nothing elsewhere, and the inserted entry stands in the place of the
earlier one of its name, or at the end. -/
theorem at?_insert (h : (t.insert name a).at? i = some (other, x)) :
    t.at? i = some (other, x) ∨ (other = name ∧ x = a ∧
      ((∃ old, t.at? i = some (name, old) ∧ t.get? name = some old) ∨ (i = t.size ∧ t.get? name = none))) := by
  unfold insert at h
  split at h
  · next j hj =>
    obtain ⟨old, hat, hget⟩ := at?_of_index? hj
    simp only [modifyAt, at?, List.getElem?_modify] at h hat
    by_cases hij : j = i
    · subst hij
      rw [hat] at h
      obtain ⟨rfl, rfl⟩ : name = other ∧ a = x := by simpa using h
      exact .inr ⟨rfl, rfl, .inl ⟨old, hat, hget⟩⟩
    · exact .inl (by simpa [hij, at?] using h)
  · next hnone =>
    simp only [at?] at h
    rcases Nat.lt_or_ge i t.entries.length with hlt | hge
    · exact .inl (by rwa [List.getElem?_append_left hlt] at h)
    · have hi : i = t.entries.length := by
        have := (List.getElem?_eq_some_iff.mp h).1
        simp at this
        omega
      subst hi
      obtain ⟨rfl, rfl⟩ : name = other ∧ a = x := by simpa using h
      exact .inr ⟨rfl, rfl, .inr ⟨rfl, get?_eq_none_of_index? hnone⟩⟩

end Elementwise.Table
