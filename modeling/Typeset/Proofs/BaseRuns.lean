import Typeset.Proofs.Lines

/-!
# Runs of base glyphs

An annotation belongs to the text right before it: to one plain glyph, or to a whole run of base
glyphs. A run is torn where the breaks cut the text between two of its glyphs.
-/

namespace Typeset

namespace Glyph

variable {α τ : Type} {gs hs : List (Glyph α τ)} {role role' : RubyRole} {s : Span} {b i k : ℕ}

/-- A glyph with the given part in annotated text stands at the position. -/
def RoleAt (gs : List (Glyph α τ)) (role : RubyRole) (i : ℕ) : Prop :=
  ∃ g, gs[i]? = some g ∧ g.ruby = role

/-- A glyph of a base stands at the position. -/
abbrev BaseAt (gs : List (Glyph α τ)) (i : ℕ) : Prop := RoleAt gs .base i

/-- A glyph of text without annotation stands at the position. -/
abbrev PlainAt (gs : List (Glyph α τ)) (i : ℕ) : Prop := RoleAt gs .plain i

/-- An annotation stands at the position. -/
def AnnotationAt (gs : List (Glyph α τ)) (i : ℕ) : Prop :=
  ∃ g, gs[i]? = some g ∧ g.annotates = true

instance (gs : List (Glyph α τ)) (role : RubyRole) (i : ℕ) : Decidable (RoleAt gs role i) :=
  decidable_of_iff ((gs.map ruby)[i]? = some role) (by simp [RoleAt])

instance (gs : List (Glyph α τ)) (i : ℕ) : Decidable (AnnotationAt gs i) :=
  decidable_of_iff ((gs.map annotates)[i]? = some true) (by simp [AnnotationAt])

/-- A run of glyphs with one part in annotated text, as long as it goes. -/
structure IsRun (gs : List (Glyph α τ)) (role : RubyRole) (r : Span) : Prop where
  lt : r.start < r.stop
  inside : ∀ i, r.start ≤ i → i < r.stop → RoleAt gs role i
  left : 0 < r.start → ¬ RoleAt gs role (r.start - 1)
  right : ¬ RoleAt gs role r.stop

/-- A run of base glyphs, as long as it goes. -/
abbrev IsBaseRun (gs : List (Glyph α τ)) (r : Span) : Prop := IsRun gs .base r

/-- The two glyphs around a position belong to one base. -/
def InsideBase (gs : List (Glyph α τ)) (b : ℕ) : Prop := 0 < b ∧ BaseAt gs (b - 1) ∧ BaseAt gs b

/-- No annotation carries a break. -/
def AnnotationsUnbroken (gs : List (Glyph α τ)) : Prop :=
  ∀ g ∈ gs, g.annotates = true → g.split ≠ .before ∧ g.split ≠ .replace

/-- One line holds all of a span. -/
def OnOneLine (gs : List (Glyph α τ)) (s : Span) : Prop :=
  ∃ line ∈ lineSpans gs, line.start ≤ s.start ∧ s.stop ≤ line.stop

instance (gs : List (Glyph α τ)) (s : Span) : Decidable (OnOneLine gs s) :=
  inferInstanceAs (Decidable (∃ line ∈ lineSpans gs, line.start ≤ s.start ∧ s.stop ≤ line.stop))

theorem RoleAt.lt_length (h : RoleAt gs role i) : i < gs.length := by
  obtain ⟨g, hg, _⟩ := h
  exact (List.getElem?_eq_some_iff.mp hg).1

theorem RoleAt.ruby_eq (h : RoleAt gs role i) {g : Glyph α τ} (hg : gs[i]? = some g) :
    g.ruby = role := by
  obtain ⟨k, hk, hrole⟩ := h
  rw [hg] at hk
  exact Option.some.inj hk ▸ hrole

theorem roleAt_iff {g : Glyph α τ} (hg : gs[i]? = some g) : RoleAt gs role i ↔ g.ruby = role :=
  ⟨fun h => h.ruby_eq hg, fun h => ⟨g, hg, h⟩⟩

theorem RoleAt.unique (h : RoleAt gs role i) (h' : RoleAt gs role' i) : role = role' := by
  obtain ⟨g, hg, hrole⟩ := h
  exact hrole.symm.trans (h'.ruby_eq hg)

theorem annotates_of_base {g : Glyph α τ} (h : g.ruby = .base) : g.annotates = false := by
  rw [annotates, h]
  rfl

theorem annotationAt_iff : AnnotationAt gs i ↔ ∃ role, RoleAt gs role i ∧ role.annotates = true := by
  constructor
  · rintro ⟨g, hg, hann⟩
    exact ⟨g.ruby, ⟨g, hg, rfl⟩, hann⟩
  · rintro ⟨_, ⟨g, hg, rfl⟩, hann⟩
    exact ⟨g, hg, hann⟩

/-- No text stands where an annotation does. -/
theorem AnnotationAt.not_roleAt (h : AnnotationAt gs i) (hrole : role.annotates = false) :
    ¬ RoleAt gs role i := by
  obtain ⟨role', h', hann⟩ := annotationAt_iff.mp h
  intro hat
  rw [h'.unique hat, hrole] at hann
  cases hann

theorem IsRun.stop_le (h : IsRun gs role s) : s.stop ≤ gs.length := by
  have hlt := h.lt
  have := (h.inside (s.stop - 1) (by omega) (by omega)).lt_length
  omega

theorem IsRun.insideBase (h : IsBaseRun gs s) (hstart : s.start < b) (hstop : b < s.stop) :
    InsideBase gs b :=
  ⟨by omega, h.inside (b - 1) (by omega) (by omega), h.inside b hstart.le hstop⟩

/-- What stands at a position of a text depends on the part that the glyph there plays alone. -/
theorem roleAt_congr (h : (gs.map ruby)[i]? = (hs.map ruby)[k]?) :
    RoleAt gs role i ↔ RoleAt hs role k := by
  have hiff : ∀ (ks : List (Glyph α τ)) (n : ℕ),
      RoleAt ks role n ↔ (ks.map ruby)[n]? = some role := by
    intro ks n
    simp [RoleAt]
  rw [hiff, hiff, h]

theorem annotationAt_congr (h : (gs.map ruby)[i]? = (hs.map ruby)[k]?) :
    AnnotationAt gs i ↔ AnnotationAt hs k := by
  simp only [annotationAt_iff, roleAt_congr h]

theorem IsRun.congr (h : gs.map ruby = hs.map ruby) (hs' : IsRun gs role s) : IsRun hs role s := by
  have hrole : ∀ i, RoleAt gs role i ↔ RoleAt hs role i := fun i => roleAt_congr (by rw [h])
  exact ⟨hs'.lt, fun i hi hi' => (hrole i).mp (hs'.inside i hi hi'),
    fun hpos => (hrole _).not.mp (hs'.left hpos), (hrole _).not.mp hs'.right⟩

theorem onOneLine_iff (hlt : s.start < s.stop) (hle : s.stop ≤ gs.length) :
    OnOneLine gs s ↔ ∀ b, s.start < b → b < s.stop → ¬ IsCut gs b := by
  constructor
  · rintro ⟨line, hline, hstart, hstop⟩ b hb hb'
    exact (isCut_ends_of_mem_lineSpans hline).2.2 b (by omega) (by omega)
  · intro huncut
    obtain ⟨line, hline, hstart, hlt'⟩ := (tiles_lineSpans gs).exists_mem (Nat.zero_le s.start)
      (hlt.trans_le hle)
    refine ⟨line, hline, hstart, not_lt.mp fun hstop => ?_⟩
    exact huncut line.stop hlt' hstop (isCut_ends_of_mem_lineSpans hline).2.1

/-- Where no cut is added, what stood on one line still does. -/
theorem OnOneLine.of_cuts (hlen : hs.length = gs.length) (hcut : ∀ b, IsCut hs b → IsCut gs b)
    (hlt : s.start < s.stop) (h : OnOneLine gs s) : OnOneLine hs s := by
  have hle : s.stop ≤ gs.length := by
    obtain ⟨line, hline, _, hstop⟩ := h
    exact hstop.trans ((tiles_lineSpans gs).bounds hline).2.2
  refine (onOneLine_iff hlt (hlen ▸ hle)).mpr fun b hb hb' hc => ?_
  exact (onOneLine_iff hlt hle).mp h b hb hb' (hcut b hc)

section Base

variable {t : Span}

/-- The span is the base of the annotation at a position: the last text before it, which is a plain
glyph or a whole run of base glyphs. -/
structure IsBaseOf (gs : List (Glyph α τ)) (i : ℕ) (s : Span) : Prop where
  le : s.stop ≤ i
  annotated : ∀ k, s.stop ≤ k → k ≤ i → AnnotationAt gs k
  text : PlainAt gs s.start ∧ s.stop = s.start + 1 ∨ IsBaseRun gs s

theorem IsBaseOf.lt (h : IsBaseOf gs i s) : s.start < s.stop := by
  rcases h.text with ⟨_, hone⟩ | hrun
  · omega
  · exact hrun.lt

/-- The last glyph of a base is no annotation. -/
theorem IsBaseOf.not_annotationAt (h : IsBaseOf gs i s) (hstart : s.start ≤ k)
    (hstop : k < s.stop) : ¬ AnnotationAt gs k := by
  intro hann
  rcases h.text with ⟨hplain, hone⟩ | hrun
  · obtain rfl : k = s.start := by omega
    exact hann.not_roleAt rfl hplain
  · exact hann.not_roleAt rfl (hrun.inside k hstart hstop)

theorem IsBaseOf.stop_eq (h : IsBaseOf gs i s) (ht : IsBaseOf gs i t) : s.stop = t.stop := by
  have hs := h.lt
  have hlt := ht.lt
  have hsi := h.le
  have hti := ht.le
  rcases Nat.lt_trichotomy s.stop t.stop with hst | hst | hst
  · exact absurd (h.annotated (t.stop - 1) (by omega) (by omega))
      (ht.not_annotationAt (by omega) (by omega))
  · exact hst
  · exact absurd (ht.annotated (s.stop - 1) (by omega) (by omega))
      (h.not_annotationAt (by omega) (by omega))

theorem IsBaseOf.unique (h : IsBaseOf gs i s) (ht : IsBaseOf gs i t) : s = t := by
  have hstop := h.stop_eq ht
  have hle : ∀ {s t : Span}, IsBaseOf gs i s → IsBaseOf gs i t → s.stop = t.stop →
      s.start ≤ t.start := by
    intro s t hs ht hstop
    have hslt := hs.lt
    have htlt := ht.lt
    by_contra hlt
    rcases ht.text with ⟨_, hone⟩ | hrun
    · omega
    · rcases hs.text with ⟨hplain, _⟩ | hrun'
      · cases hplain.unique (hrun.inside s.start (by omega) (by omega))
      · exact hrun'.left (by omega) (hrun.inside _ (by omega) (by omega))
  obtain ⟨a, b⟩ := s
  obtain ⟨c, d⟩ := t
  have hstart : a = c := le_antisymm (hle h ht hstop) (hle ht h hstop.symm)
  dsimp only at hstop
  rw [hstart, hstop]

/-- The base of an annotation depends on the parts that the glyphs play alone. -/
theorem IsBaseOf.congr (h : gs.map ruby = hs.map ruby) (hs' : IsBaseOf gs i s) :
    IsBaseOf hs i s := by
  refine ⟨hs'.le, fun k hk hk' => ?_, ?_⟩
  · exact (annotationAt_congr (by rw [h])).mp (hs'.annotated k hk hk')
  · exact hs'.text.imp (fun ht => ⟨(roleAt_congr (by rw [h])).mp ht.1, ht.2⟩) (IsRun.congr h)

end Base

end Glyph

end Typeset
