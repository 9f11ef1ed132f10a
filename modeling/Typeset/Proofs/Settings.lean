import Mathlib.Tactic
import Typeset.Style.Reading

/-!
# Styles are read field by field

An object gives a style if its names are text, no known name occurs twice, and the value of every
member with a known name is of the kind of its field. Each field then has the content that its
member gives, or its default. Neither the order of the members nor those of other names matter.
-/

namespace Typeset

variable {α τ β : Type}

theorem Language.ofName?_eq_some_iff (name : String) (l : Language) :
    ofName? name = some l ↔ name = l.name := by
  constructor
  · intro h
    have hname := List.find?_some h
    exact (beq_iff_eq.mp hname).symm
  · rintro rfl
    exact ofName?_name l

theorem BreakMode.ofName?_eq_some_iff (name : String) (m : BreakMode) :
    ofName? name = some m ↔ name = m.name := by
  constructor
  · intro h
    have hname := List.find?_some h
    exact (beq_iff_eq.mp hname).symm
  · rintro rfl
    exact ofName?_name m

namespace Json

theorem name?_eq_some_iff (v : Json) (name : String) :
    v.name? = some name ↔ v = .str (some name) ∨ v = .obj [(some name, .null)] := by
  unfold name?
  split
  next => simp
  next => simp
  next hstr hobj =>
    constructor
    · intro h
      cases h
    · rintro (rfl | rfl)
      · exact absurd rfl (hstr _)
      · exact absurd rfl (hobj _)

/-- A kind of field: how values are read, and which values give which content. Null gives none. -/
structure Kind (β : Type) where
  read? : Json → Option β
  Gives : Json → β → Prop
  read?_eq_some_iff : ∀ v x, read? v = some x ↔ Gives v x
  not_null : ∀ x, ¬ Gives null x

namespace Kind

/-- A number within the range of the field. -/
def number [Readable β] : Kind β where
  read? := number?
  Gives v x := ∃ n, v = num n ∧ Readable.ofNumber? n = some x
  read?_eq_some_iff v x := by cases v <;> simp [number?]
  not_null x := by simp

/-- A truth value. -/
def flag : Kind Bool where
  read? := bool?
  Gives v x := v = bool x
  read?_eq_some_iff v x := by cases v <;> simp [bool?]
  not_null x := by simp

/-- One of some names, as text or as the only member of an object, with the value null. -/
def choice (ofName? : String → Option β) (nameOf : β → String)
    (h : ∀ name x, ofName? name = some x ↔ name = nameOf x) : Kind β where
  read? v := v.name?.bind ofName?
  Gives v x := v = str (some (nameOf x)) ∨ v = obj [(some (nameOf x), null)]
  read?_eq_some_iff v x := by simp [Option.bind_eq_some_iff, h, name?_eq_some_iff]
  not_null x := by simp

end Kind

end Json

/-- The members of an object as they stand in a document, where a name may be no text. -/
abbrev Json.Object := List (Option String × Json)

namespace Members

variable {name : String} {v w : Json} {ms : Members} {known : List String}

/-- Members with their names as they stand in a document. -/
def toObject (ms : Members) : Json.Object := ms.map fun m => (some m.1, m.2)

@[simp] theorem mem_toObject : (some name, v) ∈ ms.toObject ↔ (name, v) ∈ ms := by
  simp [toObject]

@[simp] theorem count_toObject :
    (ms.toObject.map Prod.fst).count (some name) = (ms.map Prod.fst).count name := by
  have hnames : ms.toObject.map Prod.fst = (ms.map Prod.fst).map some := by simp [toObject]
  rw [hnames]
  exact List.count_map_of_injective _ _ (Option.some_injective _) _

theorem exists_toObject_iff {o : Json.Object} :
    (∃ ms : Members, o = ms.toObject) ↔ ∀ m ∈ o, m.1 ≠ none := by
  constructor
  · rintro ⟨ms, rfl⟩ m hm
    obtain ⟨k, -, rfl⟩ := List.mem_map.mp hm
    simp
  · intro h
    induction o with
    | nil => exact ⟨[], rfl⟩
    | cons m o ih =>
      obtain ⟨hm, ho⟩ := List.forall_mem_cons.mp h
      obtain ⟨ms, rfl⟩ := ih ho
      obtain ⟨name, hname⟩ := Option.ne_none_iff_exists'.mp hm
      exact ⟨(name, m.2) :: ms, by simp [toObject, ← hname]⟩

theorem distinct_iff :
    ms.distinct known = true ↔ ∀ name ∈ known, (ms.map Prod.fst).count name ≤ 1 := by
  rw [distinct, decide_eq_true_iff, List.nodup_iff_count_le_one]
  constructor
  · intro h name hname
    simpa [List.count_filter, hname] using h name
  · intro h name
    by_cases hname : name ∈ known
    · simpa [List.count_filter, hname] using h name hname
    · rw [List.count_eq_zero_of_not_mem (by simp [hname])]
      exact Nat.zero_le 1

/-- A name that occurs once leads to its value. -/
theorem lookup_eq_some_iff (honce : (ms.map Prod.fst).count name ≤ 1) :
    ms.lookup name = some v ↔ (name, v) ∈ ms := by
  induction ms with
  | nil => simp
  | cons m ms ih =>
    obtain ⟨k, u⟩ := m
    by_cases hk : k = name
    · subst hk
      have hrest : k ∉ ms.map Prod.fst := by
        rw [List.map_cons, List.count_cons_self] at honce
        exact List.count_eq_zero.mp (by omega)
      have hv : (k, v) ∉ ms := fun hmem => hrest (List.mem_map_of_mem hmem)
      simp only [List.lookup_cons, beq_self_eq_true, Option.some.injEq, List.mem_cons,
        Prod.mk.injEq, true_and, hv, or_false]
      exact eq_comm
    · have hcount : (ms.map Prod.fst).count name ≤ 1 := by
        rwa [List.map_cons, List.count_cons_of_ne hk] at honce
      simp [List.lookup_cons, beq_false_of_ne (Ne.symm hk), ih hcount, Ne.symm hk]

theorem lookup_eq_none_iff (honce : (ms.map Prod.fst).count name ≤ 1) :
    ms.lookup name = none ↔ ∀ v, (name, v) ∉ ms := by
  simp [Option.eq_none_iff_forall_ne_some, lookup_eq_some_iff honce]

theorem eq_of_mem (honce : (ms.map Prod.fst).count name ≤ 1) (hv : (name, v) ∈ ms)
    (hw : (name, w) ∈ ms) : v = w := by
  rw [← lookup_eq_some_iff honce] at hv hw
  exact Option.some.inj (hv.symm.trans hw)

/-- A field is read from the member of its name, or is absent without one. -/
theorem field_eq_some_iff (honce : (ms.map Prod.fst).count name ≤ 1) (kind : Json.Kind β)
    (absent x : β) : ms.field name kind.read? (some absent) = some x ↔
      (∃ v, (name, v) ∈ ms ∧ kind.Gives v x) ∨ (∀ v, (name, v) ∉ ms) ∧ x = absent := by
  rw [← lookup_eq_none_iff honce]
  simp only [← lookup_eq_some_iff honce, field]
  cases hlookup : ms.lookup name with
  | none => simp [eq_comm]
  | some v => simp [kind.read?_eq_some_iff]

end Members

/-- An object is read member by member, if all of their names are text. -/
theorem Json.fields?_obj_eq_some_iff (names : List String) (o : Object) (ms : Members) :
    (obj o).fields? names = some ms ↔ o = ms.toObject := by
  simp only [fields?, Members.toObject]
  induction o generalizing ms with
  | nil => cases ms <;> simp
  | cons m o ih =>
    obtain ⟨name, v⟩ := m
    cases ms with
    | nil => cases name <;> simp [Option.bind_eq_some_iff]
    | cons k ms =>
      cases name with
      | none => simp
      | some name => simp [Option.bind_eq_some_iff, ih, Prod.ext_iff, and_comm]

/-- A field of a style. -/
structure Setting (α τ : Type) where
  {β : Type}
  name : String
  kind : Json.Kind β
  get : Style α τ → β

/-- What gives a field its content: the value of the member of its name, or its default where no
member has its name. -/
def Setting.GivenBy [Scalar α] [Scalar τ] (e : Setting α τ) (o : Json.Object) (s : Style α τ) :
    Prop :=
  (∃ v, (some e.name, v) ∈ o ∧ e.kind.Gives v (e.get s)) ∨
    (∀ v, (some e.name, v) ∉ o) ∧ e.get s = e.get .default

namespace Style

variable [Json.Readable α] [Json.Readable τ]

/-- The fields of a style, in order. -/
def settings : List (Setting α τ) :=
  [⟨"first_width", .number, firstWidth⟩,
    ⟨"rest_width", .number, restWidth⟩,
    ⟨"start_x", .number, left⟩,
    ⟨"start_y", .number, top⟩,
    ⟨"first_indent", .number, firstIndent⟩,
    ⟨"rest_indent", .number, restIndent⟩,
    ⟨"align_width", .number, alignWidth⟩,
    ⟨"text_align", .number, fun s => s.alignment.fraction⟩,
    ⟨"justify", .flag, fun s => s.alignment.justify⟩,
    ⟨"line_spacing", .number, fun s => s.spacing.below⟩,
    ⟨"line_leading", .number, fun s => s.spacing.above⟩,
    ⟨"ruby_line_leading", .number, fun s => s.spacing.aboveRuby⟩,
    ⟨"ruby_offset", .number, fun s => s.rubyOffsets.above⟩,
    ⟨"alt_ruby_offset", .number, fun s => s.rubyOffsets.below⟩,
    ⟨"language", .choice Language.ofName? Language.name Language.ofName?_eq_some_iff, language⟩,
    ⟨"layout", .choice BreakMode.ofName? BreakMode.name BreakMode.ofName?_eq_some_iff, mode⟩,
    ⟨"rtl", .flag, rtl⟩,
    ⟨"slow_cps", .number, rate⟩]

theorem map_name_settings : (settings : List (Setting α τ)).map Setting.name = fieldNames := rfl

theorem name_mem_fieldNames {e : Setting α τ} (he : e ∈ settings) : e.name ∈ fieldNames :=
  map_name_settings (α := α) (τ := τ) ▸ List.mem_map_of_mem he

/-- The objects that give a style. -/
structure Acceptable (α τ : Type) [Json.Readable α] [Json.Readable τ] (o : Json.Object) : Prop where
  named : ∀ m ∈ o, m.1 ≠ none
  once : ∀ name ∈ fieldNames, (o.map Prod.fst).count (some name) ≤ 1
  kinds : ∀ e ∈ (settings : List (Setting α τ)), ∀ v, (some e.name, v) ∈ o →
    ∃ x, e.kind.Gives v x

theorem Acceptable.perm {o o' : Json.Object} (h : o.Perm o') (ho : Acceptable α τ o) :
    Acceptable α τ o' where
  named m hm := ho.named m (h.mem_iff.mpr hm)
  once name hname := (h.map Prod.fst).count_eq (some name) ▸ ho.once name hname
  kinds e he v hv := ho.kinds e he v (h.mem_iff.mpr hv)

section Bearing

variable {o : Json.Object} {name : String}

/-- Whether a member bears on the style: its name is known, or it is no text. -/
def bears (m : Option String × Json) : Bool := m.1.all fieldNames.contains

theorem mem_filter_bears (hname : name ∈ fieldNames) (v : Json) :
    (some name, v) ∈ o.filter bears ↔ (some name, v) ∈ o := by
  simp [bears, hname]

theorem count_filter_bears (hname : name ∈ fieldNames) :
    ((o.filter bears).map Prod.fst).count (some name) = (o.map Prod.fst).count (some name) := by
  simp only [List.count, List.countP_map, List.countP_filter]
  apply List.countP_congr
  intro m _
  simp only [Function.comp_apply, Bool.and_eq_true, beq_iff_eq, and_iff_left_iff_imp]
  intro hm
  simp [bears, hm, hname]

theorem acceptable_filter_bears_iff (o : Json.Object) :
    Acceptable α τ (o.filter bears) ↔ Acceptable α τ o := by
  constructor
  · intro h
    constructor
    · intro m hm hnone
      exact h.named m (List.mem_filter.mpr ⟨hm, by simp [bears, hnone]⟩) hnone
    · intro name hname
      exact count_filter_bears hname ▸ h.once name hname
    · intro e he v hv
      exact h.kinds e he v ((mem_filter_bears (name_mem_fieldNames he) v).mpr hv)
  · intro h
    constructor
    · intro m hm
      exact h.named m (List.mem_of_mem_filter hm)
    · intro name hname
      exact (count_filter_bears hname).symm ▸ h.once name hname
    · intro e he v hv
      exact h.kinds e he v ((mem_filter_bears (name_mem_fieldNames he) v).mp hv)

end Bearing

variable [Scalar α] [Scalar τ]

/-- The content that members give to a field. -/
def readSetting? (ms : Members) (e : Setting α τ) : Option e.β :=
  ms.field e.name e.kind.read? (some (e.get default))

/-- Every field is read on its own. -/
theorem ofMembers?_eq_some_iff (ms : Members) (s : Style α τ) :
    ofMembers? ms = some s ↔ ms.distinct fieldNames = true ∧
      ∀ e ∈ settings, readSetting? ms e = some (e.get s) := by
  simp only [settings, List.forall_mem_cons, List.not_mem_nil, false_implies, implies_true,
    and_true]
  constructor
  · intro h
    unfold ofMembers? at h
    split_ifs at h with hdistinct
    iterate 18 obtain ⟨_, _, h⟩ := Option.bind_eq_some_iff.mp h
    obtain rfl := Option.some.inj h
    refine ⟨hdistinct, ?_⟩
    and_intros <;> assumption
  · rintro ⟨hdistinct, h⟩
    iterate 17 obtain ⟨_, h⟩ := h
    unfold ofMembers?
    rw [if_pos hdistinct]
    iterate 18 refine Option.bind_eq_some_iff.mpr ⟨_, ‹_›, ?_⟩
    rfl

/-- Where every field can be read, their contents make up a style. -/
theorem exists_ofMembers? {ms : Members} (hdistinct : ms.distinct fieldNames = true)
    (h : ∀ e ∈ (settings : List (Setting α τ)), ∃ x, readSetting? ms e = some x) :
    ∃ s : Style α τ, ofMembers? ms = some s := by
  simp only [settings, List.forall_mem_cons] at h
  rw [← Option.ne_none_iff_exists']
  intro hnone
  unfold ofMembers? at hnone
  rw [if_pos hdistinct] at hnone
  -- a field that can be read leaves the failure to those after it
  iterate 18
    obtain ⟨⟨_, hx⟩, h⟩ := h
    replace hnone := Option.bind_eq_none_iff.mp hnone _ hx
  cases hnone

/-- Read on its own, a field has the content that the object gives. -/
theorem readSetting?_eq_some_iff {ms : Members} {e : Setting α τ} (he : e ∈ settings)
    (honce : ∀ name ∈ fieldNames, (ms.map Prod.fst).count name ≤ 1) (s : Style α τ) :
    readSetting? ms e = some (e.get s) ↔ e.GivenBy ms.toObject s := by
  simp only [readSetting?, Setting.GivenBy, Members.mem_toObject]
  exact Members.field_eq_some_iff (honce _ (name_mem_fieldNames he)) e.kind _ _

theorem ofJson?_obj_eq_some_iff (o : Json.Object) (s : Style α τ) :
    ofJson? (.obj o) = some s ↔ Acceptable α τ o ∧ ∀ e ∈ settings, e.GivenBy o s := by
  simp only [ofJson?, Option.bind_eq_some_iff, Json.fields?_obj_eq_some_iff,
    ofMembers?_eq_some_iff, Members.distinct_iff]
  constructor
  · rintro ⟨ms, rfl, honce, h⟩
    have hgiven : ∀ e ∈ settings, e.GivenBy (Members.toObject ms) s := fun e he =>
      (readSetting?_eq_some_iff he honce s).mp (h e he)
    refine ⟨⟨Members.exists_toObject_iff.mp ⟨ms, rfl⟩, by simpa using honce, ?_⟩, hgiven⟩
    intro e he v hv
    rcases hgiven e he with ⟨w, hw, hgives⟩ | ⟨hnone, -⟩
    · rw [Members.mem_toObject] at hv hw
      exact ⟨e.get s, Members.eq_of_mem (honce _ (name_mem_fieldNames he)) hw hv ▸ hgives⟩
    · exact absurd hv (hnone v)
  · rintro ⟨hacceptable, hgiven⟩
    obtain ⟨ms, rfl⟩ := Members.exists_toObject_iff.mpr hacceptable.named
    have honce := hacceptable.once
    simp only [Members.count_toObject] at honce
    have hread : ∀ e ∈ settings, readSetting? ms e = some (e.get s) := fun e he =>
      (readSetting?_eq_some_iff he honce s).mpr (hgiven e he)
    exact ⟨ms, rfl, honce, hread⟩

theorem exists_ofJson?_obj_iff (o : Json.Object) :
    (∃ s : Style α τ, ofJson? (.obj o) = some s) ↔ Acceptable α τ o := by
  constructor
  · rintro ⟨s, hs⟩
    exact ((ofJson?_obj_eq_some_iff o s).mp hs).1
  · intro h
    obtain ⟨ms, rfl⟩ := Members.exists_toObject_iff.mpr h.named
    have honce := h.once
    simp only [Members.count_toObject] at honce
    have hread : ∀ e ∈ (settings : List (Setting α τ)), ∃ x, readSetting? ms e = some x := by
      intro e he
      have hiff := Members.field_eq_some_iff (honce _ (name_mem_fieldNames he)) e.kind
        (e.get default)
      by_cases hnone : ∀ v, (e.name, v) ∉ ms
      · exact ⟨e.get default, (hiff _).mpr (.inr ⟨hnone, rfl⟩)⟩
      · push Not at hnone
        obtain ⟨v, hv⟩ := hnone
        obtain ⟨x, hx⟩ := h.kinds e he v (Members.mem_toObject.mpr hv)
        exact ⟨x, (hiff x).mpr (.inl ⟨v, hv, hx⟩)⟩
    obtain ⟨s, hs⟩ := exists_ofMembers? (Members.distinct_iff.mpr honce) hread
    exact ⟨s, by simp [ofJson?, (Json.fields?_obj_eq_some_iff _ _ _).mpr rfl, hs]⟩

/-- Objects that are acceptable alike and give every field the same are read alike. -/
theorem ofJson?_obj_congr {o o' : Json.Object} (haccepts : Acceptable α τ o ↔ Acceptable α τ o')
    (hgives : ∀ e ∈ settings, ∀ s : Style α τ, e.GivenBy o s ↔ e.GivenBy o' s) :
    (ofJson? (.obj o) : Option (Style α τ)) = ofJson? (.obj o') := by
  ext s
  simp only [ofJson?_obj_eq_some_iff, haccepts]
  exact and_congr_right fun _ => forall₂_congr fun e he => hgives e he s

/-- The order of the members does not matter. -/
theorem ofJson?_obj_perm {o o' : Json.Object} (h : o.Perm o') :
    (ofJson? (.obj o) : Option (Style α τ)) = ofJson? (.obj o') := by
  apply ofJson?_obj_congr ⟨Acceptable.perm h, Acceptable.perm h.symm⟩
  intro e _ s
  simp only [Setting.GivenBy, h.mem_iff]

/-- Members of other names are passed over. -/
theorem ofJson?_obj_filter (o : Json.Object) :
    (ofJson? (.obj (o.filter bears)) : Option (Style α τ)) = ofJson? (.obj o) := by
  apply ofJson?_obj_congr (acceptable_filter_bears_iff o)
  intro e he s
  simp only [Setting.GivenBy, mem_filter_bears (name_mem_fieldNames he)]

/-- A reading of objects field by field, on which neither the order of the members nor those of
other names bear. -/
structure ReadsByField (read : Json.Object → Option (Style α τ)) : Prop where
  accepts : ∀ o, (∃ s, read o = some s) ↔ Acceptable α τ o
  gives : ∀ o s, read o = some s ↔ Acceptable α τ o ∧ ∀ e ∈ settings, e.GivenBy o s
  null : ∀ o, ∀ e ∈ (settings : List (Setting α τ)), (some e.name, .null) ∈ o → read o = none
  perm : ∀ o o', o.Perm o' → read o = read o'
  unknown : ∀ pre post name v, name ∉ fieldNames →
    read (pre ++ (some name, v) :: post) = read (pre ++ post)

theorem object_readsByField :
    ReadsByField fun o => (ofJson? (.obj o) : Option (Style α τ)) where
  accepts := exists_ofJson?_obj_iff
  gives := ofJson?_obj_eq_some_iff
  null o e he hnull := by
    rw [Option.eq_none_iff_forall_ne_some]
    intro s hs
    have haccepts := ((ofJson?_obj_eq_some_iff o s).mp hs).1
    obtain ⟨x, hx⟩ := haccepts.kinds e he .null hnull
    exact e.kind.not_null x hx
  perm _ _ h := ofJson?_obj_perm h
  unknown pre post name v hname := by
    have hbears : bears (some name, v) = false := by simpa [bears] using hname
    rw [← ofJson?_obj_filter, ← ofJson?_obj_filter (pre ++ post)]
    simp [hbears]

/-- A style in a document, among members of another name. -/
def unbrokenDocument : Json.Object :=
  [(some "indent", .null), (some "layout", .str (some "nobreak")),
    (some "first_width", .num ⟨false, 300, 0, true⟩), (some "indent", .arr [.null])]

theorem object_readsByField_unbrokenDocument : ∃ s : Style Float32 Float,
    ofJson? (.obj unbrokenDocument) = some s ∧ s.mode = .unbroken ∧
      ofJson? (.obj unbrokenDocument.reverse) = some s := by
  have hread : ((ofJson? (.obj unbrokenDocument) : Option (Style Float32 Float)).map mode) =
      some .unbroken := by
    decide +kernel
  obtain ⟨s, hs, hmode⟩ := Option.map_eq_some_iff.mp hread
  have hreads := object_readsByField (α := Float32) (τ := Float)
  have hperm := hreads.perm _ _ (List.reverse_perm unbrokenDocument)
  exact ⟨s, hs, hmode, hperm.trans hs⟩

/-- The document `{"language": {"western": null}}`. -/
def languageByObject : Json.Object := [(some "language", .obj [(some "western", .null)])]

/-- The document `{"start_x": 1e400}`. -/
def hugeStart : Json.Object := [(some "start_x", .num ⟨false, 1, 400, false⟩)]

/-- A document whose only name is half of a surrogate pair, with the value 0. -/
def brokenName : Json.Object := [(none, .num ⟨false, 0, 0, true⟩)]

/-- Numbers, written names and unknown names are not all there is to it: a name may also be given by
an object, a number out of range is refused, and so is a name that is no text. -/
theorem object_exceptions :
    ((ofJson? (.obj languageByObject) : Option (Style Float32 Float)).isSome = true ∧
      ∀ l : Language, (some "language", .str (some l.name)) ∉ languageByObject) ∧
    ((ofJson? (.obj hugeStart) : Option (Style Float32 Float)).isNone = true ∧
      ∃ n, (some "start_x", .num n) ∈ hugeStart) ∧
    ((ofJson? (.obj brokenName) : Option (Style Float32 Float)).isNone = true ∧
      ∀ name ∈ fieldNames, ∀ v, (some name, v) ∉ brokenName) := by
  refine ⟨⟨by decide +kernel, ?_⟩, ⟨by decide +kernel, ?_⟩, ⟨by decide +kernel, ?_⟩⟩
  · simp [languageByObject]
  · simp [hugeStart]
  · simp [brokenName]

end Style

end Typeset
