import Elementwise.Execute.Bind
import Elementwise.Proofs.DataSet.Fields
import Mathlib.Data.List.Forall2

/-!
# Binding fields

A binding goes through the entries of a registry in order. It has created the entries that the data set lacks, each
of them at the end and written by the program, and it has the handle of every entry so far. An entry that cannot be
bound ends it there: what stood before that entry was created, and nothing else has changed. What is read through the
handles is what the data set held before, or what was created.
-/

namespace Elementwise

/-! ## Slots and handles -/

namespace Registry

variable {r : Registry}

theorem getElem?_list (r : Registry) (i : Nat) : r.list[i]? = r.at? i := by
  simp [list, at?, Table.values, Table.at?]

/-- Where no name stands twice, neither does an entry. -/
theorem slot_unique (hnodup : (r.list.map Entry.name).Nodup) {i j : Nat} {e e' : Entry}
    (he : r.at? i = some e) (he' : r.at? j = some e') (hname : e'.name = e.name) : j = i := by
  have hnames (k : Nat) (x : Entry) (hx : r.at? k = some x) : (r.list.map Entry.name)[k]? = some x.name := by
    rw [List.getElem?_map, getElem?_list, hx, Option.map_some]
  have hlt := (List.getElem?_eq_some_iff.mp (hnames j e' he')).1
  exact (List.getElem?_inj hlt hnodup).mp ((hnames j e' he').trans (hname ▸ (hnames i e he).symm))

/-- A slot is put back at a handle if its entry is written and has this handle. -/
theorem writeTargets_eq_some {handles : List Handle} {slot : Nat} {i : Handle} :
    (r.writeTargets handles)[slot]?.join = some i ↔
      ∃ e, r.list[slot]? = some e ∧ e.writable = true ∧ handles[slot]? = some i := by
  rw [writeTargets, List.getElem?_map]
  cases hslot : (r.list.zip handles)[slot]? with
  | none =>
    constructor
    · intro h
      cases h
    · rintro ⟨e, he, -, hi⟩
      have hzip : (r.list.zip handles)[slot]? = some (e, i) := List.getElem?_zip_eq_some.mpr ⟨he, hi⟩
      exact absurd (hslot.symm.trans hzip) (by simp)
  | some pair =>
    obtain ⟨e, j⟩ := pair
    obtain ⟨he, hj⟩ := List.getElem?_zip_eq_some.mp hslot
    rw [he, hj]
    cases hwritable : e.writable <;> simp [hwritable]

end Registry

/-- The name of the entry that could not be bound. -/
def BindingError.name : BindingError → String
  | missingReadOnly _ name _ => name
  | typeMismatch _ name _ _ => name
  | create _ name _ => name

namespace Binding

open HasFields

variable {D E F : Type} [DataSet D E] [FieldData F E] [HasFields D E F]

/-- What a binding of entries has made of a data set: it added what was missing, all of which is written,
and has the handle of every entry. -/
structure Binds (start : D) (entries : List Entry) (b : Binding D) : Prop where
  data : b.data = add start (missing start entries)
  created : b.created = (missing start entries).map Entry.name
  writable : ∀ e ∈ missing start entries, e.writable = true
  handles : List.Forall₂ (Reaches b.data) entries b.handles

variable {start : D} {done : List Entry} {e : Entry} {b b' : Binding D} {target : Target}

namespace Binds

theorem nil (start : D) : Binds start [] { data := start } :=
  ⟨(add_nil start).symm, rfl, by simp [missing], .nil⟩

section

variable (h : b.Binds start done)

include h

/-- An entry whose name is new, and is there, was there from the start. -/
theorem mem_names (hnew : e.name ∉ done.map Entry.name)
    (hmem : e.name ∈ (table b.data).names) : e.name ∈ (table start).names := by
  rw [h.data, names_add, List.mem_append] at hmem
  refine hmem.resolve_right fun hmissing => hnew ?_
  obtain ⟨e', he', hname⟩ := List.mem_map.mp hmissing
  exact List.mem_map.mpr ⟨e', (List.mem_filter.mp he').1, hname⟩

/-- One more entry that is there. -/
theorem found (hnew : e.name ∉ done.map Entry.name) {i : Handle}
    (hi : Reaches b.data e i) : Binds start (done ++ [e]) { b with handles := b.handles ++ [i] } := by
  have hmissing : missing start (done ++ [e]) = missing start done := by
    rw [missing_concat, if_pos (h.mem_names hnew hi.mem_names)]
  refine ⟨hmissing ▸ h.data, hmissing ▸ h.created, hmissing ▸ h.writable, ?_⟩
  exact List.rel_append h.handles (.cons hi .nil)

/-- One more entry, that had to be created. -/
theorem added (hmissing : e.name ∉ (table b.data).names) (hwritable : e.writable = true) :
    Binds start (done ++ [e])
      { data := add b.data [e], handles := b.handles ++ [(table b.data).size], created := b.created ++ [e.name] } := by
  have hlacks : e.name ∉ (table start).names := by
    rw [h.data, names_add, List.mem_append, not_or] at hmissing
    exact hmissing.1
  have hconcat : missing start (done ++ [e]) = missing start done ++ [e] := by
    rw [missing_concat, if_neg hlacks]
  refine ⟨?_, ?_, ?_, ?_⟩
  · rw [hconcat, add_append, ← h.data]
  · rw [hconcat, List.map_append, ← h.created]
    rfl
  · rw [hconcat, List.forall_mem_append]
    exact ⟨h.writable, by simpa using hwritable⟩
  · refine List.rel_append (h.handles.imp fun e' j hj => hj.add ?_) (.cons (reaches_add hmissing) .nil)
    rw [List.map_singleton, List.mem_singleton]
    exact fun heq => hmissing (heq ▸ hj.mem_names)

/-- Binding one entry: it is there, or it is missing and written, and is created; otherwise the error names it. -/
theorem entry_cases (hnew : e.name ∉ done.map Entry.name) (target : Target) :
    (∃ b', b.entry target e = .ok b' ∧ b'.Binds start (done ++ [e])) ∨
      ∃ err, b.entry target e = .error err ∧ err.name = e.name := by
  rcases handle_cases b.data e with ⟨i, hi, hhandle⟩ | ⟨found, hhandle⟩ | ⟨hmissing, hhandle⟩
  · exact .inl ⟨_, by simp only [entry, hhandle], h.found hnew hi⟩
  · exact .inr ⟨.typeMismatch target e.name e.ty found, by simp only [entry, hhandle], rfl⟩
  · by_cases hwritable : e.writable = true
    · rcases create_cases hmissing with hcreate | ⟨cause, hcreate⟩
      · exact .inl ⟨_, by simp only [entry, hhandle, if_pos hwritable, hcreate], h.added hmissing hwritable⟩
      · exact .inr ⟨.create target e.name cause, by simp only [entry, hhandle, if_pos hwritable, hcreate], rfl⟩
    · exact .inr ⟨.missingReadOnly target e.name e.ty, by simp only [entry, hhandle, if_neg hwritable], rfl⟩

/-- Binding entries one after another: all of them, or those before one that cannot be bound. -/
theorem entries_cases {rest : List Entry} (hnodup : ((done ++ rest).map Entry.name).Nodup) (target : Target) :
    (∃ b', b.entries target rest = (b', none) ∧ b'.Binds start (done ++ rest)) ∨
      ∃ b' before e after err, b.entries target rest = (b', some err) ∧ rest = before ++ e :: after ∧
        b'.Binds start (done ++ before) ∧ err.name = e.name := by
  induction rest generalizing b done with
  | nil => exact .inl ⟨b, rfl, by simpa using h⟩
  | cons e rest ih =>
    have hnew : e.name ∉ done.map Entry.name := by
      rw [List.map_append, List.nodup_append] at hnodup
      exact fun hmem => hnodup.2.2 _ hmem _ List.mem_cons_self rfl
    rcases h.entry_cases hnew target with ⟨b₁, hentry, hbinds⟩ | ⟨err, hentry, hname⟩
    · have hassoc (l : List Entry) : done ++ e :: l = done ++ [e] ++ l := by simp
      have hentries : b.entries target (e :: rest) = b₁.entries target rest := by simp only [entries, hentry]
      rw [hassoc] at hnodup ⊢
      rw [hentries]
      rcases ih hbinds hnodup with hall | ⟨b', before, e', after, err, hstop, rfl, hbefore, hname⟩
      · exact .inl hall
      · exact .inr ⟨b', e :: before, e', after, err, hstop, rfl, hassoc before ▸ hbefore, hname⟩
    · exact .inr ⟨b, [], e, rest, err, by simp only [entries, hentry], rfl, by simpa using h, hname⟩

/-- A binding keeps the fields of the bound entries: what the data set had, or what was created. -/
theorem field_eq (hnodup : (done.map Entry.name).Nodup) (he : e ∈ done) : field b.data e = field start e := by
  rw [h.data, field_add_missing hnodup he]

/-- What is read through the handles are the values of the fields. -/
theorem map_value (hnodup : (done.map Entry.name).Nodup) (x : E) :
    b.handles.map (DataSet.read b.data · x) = done.map fun e => FieldData.value (field start e) x := by
  have hread (e : Entry) (he : e ∈ done) (i : Handle) (hi : Reaches b.data e i) :
      DataSet.read b.data i x = FieldData.value (field start e) x := by
    rw [hi.read, h.field_eq hnodup he]
  have hforall := h.handles
  generalize b.handles = handles at hforall ⊢
  clear hnodup h
  induction hforall with
  | nil => rfl
  | @cons e i done handles hi _ ih =>
    rw [List.map_cons, List.map_cons, hread e List.mem_cons_self i hi,
      ih fun e he => hread e (List.mem_cons_of_mem _ he)]

end

variable {r : Registry} {slot : Nat}

/-- The entry in a slot is reached at the handle of the slot. -/
theorem reaches (h : b.Binds start r.list) (he : r.at? slot = some e) :
    ∃ i, b.handles[slot]? = some i ∧ Reaches b.data e i := by
  rw [← r.getElem?_list] at he
  obtain ⟨hlt, rfl⟩ := List.getElem?_eq_some_iff.mp he
  have hlt' : slot < b.handles.length := h.handles.length_eq ▸ hlt
  exact ⟨_, List.getElem?_eq_getElem hlt', h.handles.get hlt hlt'⟩

/-- What is put back behind the handle of a name was written into the slot of a writable entry of the name. -/
theorem entry_of_target (h : b.Binds start r.list) {i : Handle} {name : String}
    (hi : (table b.data).index? name = some i) (htarget : (r.writeTargets b.handles)[slot]?.join = some i) :
    ∃ e, r.at? slot = some e ∧ e.name = name ∧ e.writable = true := by
  obtain ⟨e, he, hwritable, hhandle⟩ := Registry.writeTargets_eq_some.mp htarget
  rw [r.getElem?_list] at he
  obtain ⟨j, hj, hreaches⟩ := h.reaches he
  obtain rfl := Option.some.inj (hhandle.symm.trans hj)
  exact ⟨e, he, Table.index?_inj hreaches.1 hi, hwritable⟩

/-- Only the slot of an entry is put back behind its handle, and only if the entry is written. -/
theorem slot_of_target (h : b.Binds start r.list) (hnodup : (r.list.map Entry.name).Nodup) {i : Handle}
    (he : r.at? slot = some e) (hi : (table b.data).index? e.name = some i) {other : Nat}
    (htarget : (r.writeTargets b.handles)[other]?.join = some i) : other = slot ∧ e.writable = true := by
  obtain ⟨e', he', hname, hwritable⟩ := h.entry_of_target hi htarget
  obtain rfl := Registry.slot_unique hnodup he he' hname
  exact ⟨rfl, Option.some.inj (he'.symm.trans he) ▸ hwritable⟩

/-- The missing entries are all written. -/
theorem missing_writable (h : b.Binds start r.list) : missing start r.list = missing start r.writable := by
  rw [missing, missing, Registry.writable, List.filter_filter]
  apply List.filter_congr
  intro e he
  by_cases hname : e.name ∈ (table start).names
  · simp [hname]
  · have hwritable := h.writable e (List.mem_filter.mpr ⟨he, by simpa using hname⟩)
    simp [hname, hwritable]

/-- A field that the program does not write is there as it was. -/
theorem get?_of_unwritten (h : b.Binds start r.list) {name : String} (hname : ∀ e ∈ r.writable, e.name ≠ name) :
    (table b.data).get? name = (table start).get? name := by
  rw [h.data, h.missing_writable]
  apply get?_add_of_notMem
  intro hmem
  obtain ⟨e, he, heq⟩ := List.mem_map.mp hmem
  exact hname e (List.mem_filter.mp he).1 heq

end Binds

/-- A binding of a registry that names no field twice. -/
theorem ofRegistry_binds {r : Registry} (hnodup : (r.list.map Entry.name).Nodup) {data : D}
    (hbind : (ofRegistry r data).2 = none) : (ofRegistry r data).1.Binds data r.list := by
  have hnames : (([] ++ r.list).map Entry.name).Nodup := hnodup
  rcases (Binds.nil data).entries_cases hnames r.target with ⟨b, hentries, hbinds⟩ | ⟨b, _, _, _, err, hentries, -⟩
  · rw [ofRegistry, hentries]
    exact hbinds
  · rw [ofRegistry, hentries] at hbind
    cases hbind

/-- A binding that fails has bound the entries before the one that its error names. -/
theorem ofRegistry_rejected {r : Registry} (hnodup : (r.list.map Entry.name).Nodup) {data : D} {err : BindingError}
    (hbind : (ofRegistry r data).2 = some err) : ∃ before e after, r.list = before ++ e :: after ∧
      (ofRegistry r data).1.Binds data before ∧ err.name = e.name := by
  have hnames : (([] ++ r.list).map Entry.name).Nodup := hnodup
  rcases (Binds.nil data).entries_cases hnames r.target with
    ⟨b, hentries, -⟩ | ⟨b, before, e, after, err', hentries, hlist, hbinds, hname⟩
  · rw [ofRegistry, hentries] at hbind
    cases hbind
  · rw [ofRegistry, hentries] at hbind ⊢
    obtain rfl := Option.some.inj hbind
    exact ⟨before, e, after, hlist, hbinds, hname⟩

end Binding

end Elementwise
