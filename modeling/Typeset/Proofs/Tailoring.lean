import Mathlib.Tactic
import Typeset.Break.TableStore

/-!
# What a tailored table says

A table is changed by operations that overlap each other, and its plane is filled by ranges that
overlap each other. Both are runs of steps of which each overrides what it covers, so both read as
the last step that covers a code point. Neither of the two tables is used to say what that is.
-/

namespace Typeset

section Overlay

variable {α β σ : Type}

/-- A member of the list with the property, after which none has it. -/
def IsLast (p : α → Prop) (l : List α) (a : α) : Prop :=
  ∃ before after, l = before ++ a :: after ∧ p a ∧ ∀ b ∈ after, ¬ p b

variable {p : α → Prop}

theorem not_isLast_nil (a : α) : ¬ IsLast p [] a := by
  rintro ⟨before, after, h, _⟩
  exact List.append_ne_nil_of_right_ne_nil before (List.cons_ne_nil a after) h.symm

theorem isLast_concat {l : List α} {a b : α} :
    IsLast p (l ++ [b]) a ↔ p b ∧ a = b ∨ ¬ p b ∧ IsLast p l a := by
  constructor
  · rintro ⟨before, after, h, ha, hafter⟩
    rcases after.eq_nil_or_concat with rfl | ⟨after, c, rfl⟩
    · obtain ⟨-, rfl⟩ : l = before ∧ b = a := by simpa using h
      exact .inl ⟨ha, rfl⟩
    · rw [List.concat_eq_append, ← List.cons_append, ← List.append_assoc] at h
      obtain ⟨rfl, hbc⟩ := List.append_inj' h rfl
      obtain rfl := List.singleton_inj.mp hbc
      exact .inr ⟨hafter b (by simp), before, after, rfl, ha, fun c hc => hafter c (by simp [hc])⟩
  · rintro (⟨hb, rfl⟩ | ⟨hb, before, after, rfl, ha, hafter⟩)
    · exact ⟨l, [], rfl, hb, by simp⟩
    · refine ⟨before, after ++ [b], by simp, ha, fun c hc => ?_⟩
      rcases List.mem_append.mp hc with hc | hc
      · exact hafter c hc
      · exact List.mem_singleton.mp hc ▸ hb

/-- Steps that override what they cover leave the value of the last one that covers, or else what
was there before. -/
theorem read_foldl (p : α → Prop) [DecidablePred p] (read : σ → β) (value : α → β)
    {step : σ → α → σ} (hstep : ∀ s a, read (step s a) = if p a then value a else read s) (s : σ)
    (l : List α) (v : β) : read (l.foldl step s) = v ↔
      (∃ a, IsLast p l a ∧ value a = v) ∨ (∀ a ∈ l, ¬ p a) ∧ read s = v := by
  induction l using List.reverseRecOn with
  | nil => simp [not_isLast_nil]
  | append_singleton l b ih =>
    rw [List.foldl_append, List.foldl_cons, List.foldl_nil, hstep]
    by_cases hb : p b
    · simp [isLast_concat, hb]
    · simp [isLast_concat, hb, ih, or_imp, forall_and]

end Overlay

section Default

/-- The class of a code point that nothing overrides: in the plane that of its Hangul syllable, or
of the last range it is in, or the unknown class; beyond the plane by a rule. -/
def IsDefault (code : ℕ) (cls : BreakClass) : Prop :=
  if 0x10000 ≤ code then supplementaryClass code = cls
  else if 0xAC00 ≤ code ∧ code ≤ 0xD7A3 then
    (if 28 ∣ code - 0xAC00 then BreakClass.H2 else .H3) = cls
  else (∃ r, IsLast (fun r => r.covers code = true) planeRanges r ∧ r.cls = cls) ∨
    (∀ r ∈ planeRanges, ¬ r.covers code = true) ∧ .XX = cls

theorem rangeClass_eq_iff {rs : List ClassRange} {code : ℕ} {cls : BreakClass} :
    rangeClass rs code = cls ↔
      (∃ r, IsLast (fun r => r.covers code = true) rs r ∧ r.cls = cls) ∨
        (∀ r ∈ rs, ¬ r.covers code = true) ∧ .XX = cls :=
  read_foldl (fun r : ClassRange => r.covers code = true) id ClassRange.cls (fun _ _ => rfl) .XX
    rs cls

theorem defaultClass_eq_iff {code : ℕ} {cls : BreakClass} :
    defaultClass code = cls ↔ IsDefault code cls := by
  rw [defaultClass, IsDefault]
  split
  · rfl
  split
  · simp only [hangulClass, Nat.dvd_iff_mod_eq_zero]
  · exact rangeClass_eq_iff

namespace Plane

theorem getElem_paint (cls : ℕ → BreakClass) (codes : List ℕ) (plane : Plane) {code : ℕ}
    (h : code < 0x10000) :
    (paint cls codes plane)[code] = if code ∈ codes then cls code else plane[code] := by
  have hstep : ∀ (p : Plane) c, (p.setIfInBounds c (cls c))[code] =
      if c = code then cls c else p[code] := fun p c => by rw [Vector.getElem_setIfInBounds]
  rcases (read_foldl (· = code) (fun p : Plane => p[code]) cls hstep plane codes _).mp rfl with
    ⟨_, ⟨l, m, rfl, rfl, _⟩, hv⟩ | ⟨hno, hv⟩
  · rw [if_pos (by simp)]
    exact hv.symm
  · rw [if_neg fun hc => hno code hc rfl]
    exact hv.symm

/-- The ranges leave a code point of the plane its class, as if there were no others. -/
theorem getElem_foldl_fill (rs : List ClassRange) (plane : Plane) {code : ℕ}
    (h : code < 0x10000) : (rs.foldl fill plane)[code] =
      rs.foldl (fun cls r => if r.covers code then r.cls else cls) plane[code] := by
  refine (List.foldl_hom (fun p : Plane => p[code]) fun p r => ?_).symm
  rw [fill, getElem_paint _ _ _ h]
  simp only [ClassRange.mem_codes]

theorem getElem_default {code : ℕ} (h : code < 0x10000) :
    Plane.default[code] = defaultClass code := by
  have hmem : code ∈ hangulCodes ↔ 0xAC00 ≤ code ∧ code ≤ 0xD7A3 := by
    rw [hangulCodes, List.mem_range'_1]
    omega
  rw [Plane.default, getElem_paint _ _ _ h, getElem_foldl_fill _ _ h, Vector.getElem_replicate,
    defaultClass, if_neg (Nat.not_le.mpr h)]
  simp only [hmem, rangeClass]

end Plane

theorem TableStore.get_default (code : ℕ) : TableStore.default.get code = defaultClass code := by
  by_cases h : code < 0x10000
  · simp only [TableStore.get_of_lt _ h, TableStore.default, Plane.getElem_default h]
  · rw [TableStore.get_of_ge _ (Nat.le_of_not_lt h), defaultClass, if_pos (Nat.le_of_not_lt h)]
    simp [TableStore.default]

end Default

section Changes

/-- The class has the name, whose letters may be of either case. -/
def BreakClass.Named (cls : BreakClass) (name : String) : Prop :=
  name.map Char.toUpper = cls.name.map Char.toUpper

instance (cls : BreakClass) (name : String) : Decidable (cls.Named name) :=
  inferInstanceAs (Decidable (name.map Char.toUpper = cls.name.map Char.toUpper))

namespace Tailoring

/-- A code point is that of a character whose class is changed. -/
def Covers (op : Tailoring) (code : ℕ) : Prop := code ∈ op.chars.map Char.toNat

instance (op : Tailoring) (code : ℕ) : Decidable (op.Covers code) :=
  inferInstanceAs (Decidable (code ∈ op.chars.map Char.toNat))

/-- The class a change gives to its characters. A name that is none gives the unknown class. -/
inductive Gives : Tailoring → BreakClass → Prop
  | one (c : Char) (cls : BreakClass) : Gives (.one c cls) cls
  | all (text : String) (cls : BreakClass) : Gives (.all text cls) cls
  | named {name : String} {cls : BreakClass} (text : String) (h : cls.Named name) :
      Gives (.named text name) cls
  | unknown {name : String} (text : String) (h : ∀ cls : BreakClass, ¬ cls.Named name) :
      Gives (.named text name) .XX

/-- The class that both tables give to the characters. -/
def cls : Tailoring → BreakClass
  | .one _ cls => cls
  | .all _ cls => cls
  | .named _ name => (BreakClass.ofName? name).getD .XX

end Tailoring

/-- The class of a code point after some changes of the default table: that of the last change
among whose characters it is, and by default if it is in none. -/
def ClassAfter (ops : List Tailoring) (code : ℕ) (cls : BreakClass) : Prop :=
  (∃ op, IsLast (fun op => op.Covers code) ops op ∧ op.Gives cls) ∨
    (∀ op ∈ ops, ¬ op.Covers code) ∧ IsDefault code cls

namespace BreakClass

theorem name_injective : Function.Injective name := by
  have h : (all.map name).Nodup := by decide +kernel
  exact fun c d => List.inj_on_of_nodup_map h (mem_all c) (mem_all d)

/-- Names are written in capital letters. -/
theorem map_toUpper_name (cls : BreakClass) : cls.name.map Char.toUpper = cls.name := by
  cases cls <;> decide +kernel

theorem ofName?_eq_some_iff {name : String} {cls : BreakClass} :
    ofName? name = some cls ↔ cls.Named name := by
  rw [Named, map_toUpper_name]
  constructor
  · intro h
    have hname : cls.name = name.map Char.toUpper := by simpa using List.find?_some h
    exact hname.symm
  · intro h
    have hsome : (ofName? name).isSome = true :=
      List.find?_isSome.mpr ⟨cls, mem_all cls, by simp [h]⟩
    obtain ⟨d, hd⟩ := Option.isSome_iff_exists.mp hsome
    have hname : d.name = name.map Char.toUpper := by simpa using List.find?_some hd
    rw [hd, name_injective (hname.trans h)]

end BreakClass

theorem Tailoring.gives_iff {op : Tailoring} {cls : BreakClass} :
    op.Gives cls ↔ op.cls = cls := by
  constructor
  · rintro (_ | _ | ⟨_, h⟩ | ⟨_, h⟩)
    · rfl
    · rfl
    · rw [Tailoring.cls, BreakClass.ofName?_eq_some_iff.mpr h, Option.getD_some]
    · have hnone : BreakClass.ofName? _ = none :=
        Option.eq_none_iff_forall_ne_some.mpr fun c hc => h c (BreakClass.ofName?_eq_some_iff.mp hc)
      rw [Tailoring.cls, hnone, Option.getD_none]
  · rintro rfl
    cases op with
    | one c cls => exact .one c cls
    | all text cls => exact .all text cls
    | named text name =>
      rw [Tailoring.cls]
      cases h : BreakClass.ofName? name with
      | some c => exact .named text (BreakClass.ofName?_eq_some_iff.mp h)
      | none =>
        refine .unknown text fun c hc => ?_
        rw [BreakClass.ofName?_eq_some_iff.mpr hc] at h
        cases h

end Changes

section Tables

/-- Overriding the class of each of some characters. -/
theorem get_foldl_tailor {T : Type} {get : T → ℕ → BreakClass}
    {tailor : T → Char → BreakClass → T}
    (hget : ∀ t c cls code, get (tailor t c cls) code = if code = c.toNat then cls else get t code)
    (t : T) (cs : List Char) (cls : BreakClass) (code : ℕ) :
    get (cs.foldl (fun t c => tailor t c cls) t) code =
      if code ∈ cs.map Char.toNat then cls else get t code := by
  have hstep : ∀ t c, get (tailor t c cls) code = if c.toNat = code then cls else get t code :=
    fun t c => by simp only [hget, eq_comm]
  rcases (read_foldl (fun c => c.toNat = code) (fun t => get t code) (fun _ => cls) hstep t cs
    _).mp rfl with ⟨c, ⟨l, m, rfl, hc, _⟩, hv⟩ | ⟨hno, hv⟩
  · rw [if_pos (List.mem_map.mpr ⟨c, by simp, hc⟩)]
    exact hv.symm
  · have hnot : code ∉ cs.map Char.toNat := by
      intro hcode
      obtain ⟨c, hc, he⟩ := List.mem_map.mp hcode
      exact hno c hc he
    rw [if_neg hnot]
    exact hv.symm

theorem ClassTable.get_apply (t : ClassTable) (op : Tailoring) (code : ℕ) :
    (t.apply op).get code = if op.Covers code then op.cls else t.get code := by
  have hop : t.apply op = op.chars.foldl (fun t c => t.tailor c op.cls) t := by cases op <;> rfl
  rw [hop]
  exact get_foldl_tailor get_tailor t op.chars op.cls code

theorem TableStore.get_apply (t : TableStore) (op : Tailoring) (code : ℕ) :
    (t.apply op).get code = if op.Covers code then op.cls else t.get code := by
  have hop : t.apply op = op.chars.foldl (fun t c => t.tailor c op.cls) t := by cases op <;> rfl
  rw [hop]
  exact get_foldl_tailor get_tailor t op.chars op.cls code

/-- After any changes of the default tables every code point has the class of the last change it is
in, or its default, in the two stores as in the list of overrides. No change touches the class of a
code point that is none of its characters, whatever the table. -/
theorem get_applyAll (ops : List Tailoring) (code : ℕ) :
    (∀ cls, (TableStore.default.applyAll ops).get code = cls ↔ ClassAfter ops code cls) ∧
      (∀ cls, (ClassTable.default.applyAll ops).get code = cls ↔ ClassAfter ops code cls) ∧
      ∀ op : Tailoring, ¬ op.Covers code →
        (∀ t : TableStore, (t.apply op).get code = t.get code) ∧
          ∀ t : ClassTable, (t.apply op).get code = t.get code := by
  refine ⟨fun cls => ?_, fun cls => ?_, fun op h => ⟨fun t => ?_, fun t => ?_⟩⟩
  · simp only [ClassAfter, Tailoring.gives_iff, ← defaultClass_eq_iff, ← TableStore.get_default]
    exact read_foldl (fun op => op.Covers code) (fun t : TableStore => t.get code) Tailoring.cls
      (fun t op => t.get_apply op code) .default ops cls
  · simp only [ClassAfter, Tailoring.gives_iff, ← defaultClass_eq_iff, ← ClassTable.get_default]
    exact read_foldl (fun op => op.Covers code) (fun t : ClassTable => t.get code) Tailoring.cls
      (fun t op => t.get_apply op code) .default ops cls
  · rw [t.get_apply, if_neg h]
  · rw [t.get_apply, if_neg h]

/-- Changes that meet on both sides of the plane's end, one with a name that is none. -/
def overlapping : List Tailoring :=
  [.one 'a' .ID, .all "a𠀀" .AL, .named "𠀀" "nS", .named "b" "bogus"]

theorem get_applyAll_overlapping :
    (TableStore.default.applyAll overlapping).get 0x61 = .AL ∧
      (TableStore.default.applyAll overlapping).get 0x62 = .XX ∧
      (TableStore.default.applyAll overlapping).get 0x20000 = .NS ∧
      (TableStore.default.applyAll overlapping).get 0xAC01 = .H3 ∧
      ((TableStore.default.applyAll overlapping).apply (.named "ab" "zw")).get 0x20000 = .NS := by
  have hns : (TableStore.default.applyAll overlapping).get 0x20000 = .NS :=
    ((get_applyAll overlapping 0x20000).1 .NS).mpr <| .inl ⟨_, ⟨_ :: _ :: [], [_], rfl,
      by decide +kernel, by decide +kernel⟩,
      .named _ (BreakClass.ofName?_eq_some_iff.mp (by decide +kernel))⟩
  refine ⟨((get_applyAll overlapping 0x61).1 .AL).mpr ?_,
    ((get_applyAll overlapping 0x62).1 .XX).mpr ?_, hns,
    ((get_applyAll overlapping 0xAC01).1 .H3).mpr ?_, ?_⟩
  · exact .inl ⟨_, ⟨[_], _ :: _ :: [], rfl, by decide +kernel, by decide +kernel⟩, .all _ _⟩
  · refine .inl ⟨_, ⟨_ :: _ :: _ :: [], [], rfl, by decide +kernel, by decide +kernel⟩,
      .unknown _ fun cls => ?_⟩
    cases cls <;> decide +kernel
  · exact .inr ⟨by decide +kernel, defaultClass_eq_iff.mp (by decide +kernel)⟩
  · rw [((get_applyAll [] 0x20000).2.2 _ (by decide +kernel)).1, hns]

end Tables

end Typeset
