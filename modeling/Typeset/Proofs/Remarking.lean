import Typeset.Proofs.PairRule

/-!
# Marking a text again

A classifier reads the characters of a text, their parts in it and, where a mark may be left
standing, the split that it finds. It writes splits of text alone. So the marks that one run leaves
are those that a second run makes, and breaks of an earlier run do not feed into the next.
-/

namespace Typeset

open Glyph

variable {α τ : Type} {gs hs : List (Glyph α τ)}

section Single

/-- A glyph marked where a line may break at spaces and objects is marked that way again. -/
theorem westernStep_again (inBase : InBase) (g : Glyph α τ) :
    westernStep inBase (westernStep inBase g).2 = westernStep inBase g := by
  have hann : ∀ split, ({ g with split } : Glyph α τ).annotates = g.annotates := fun _ => rfl
  have hobject : ∀ split, ({ g with split } : Glyph α τ).isObject = g.isObject := fun _ => rfl
  have hspace : ∀ split, ({ g with split } : Glyph α τ).isSpace = g.isSpace := fun _ => rfl
  by_cases h : g.annotates = true
  · simp [westernStep, h]
  · by_cases hin : (inBase && g.ruby == .base) = true
    · simp [westernStep, h, hin, hann]
    · by_cases ho : g.isObject = true
      · simp [westernStep, h, hin, ho, hann, hobject]
      · by_cases hs : g.isSpace = true
        · simp [westernStep, h, hin, ho, hs, hann, hobject, hspace]
        · simp [westernStep, h, hin, ho, hs]

/-- Between any two glyphs a mark is made whatever break the text had there. -/
theorem anywhereStep_rebreaks (inBase : InBase) {g h : Glyph α τ} (hgh : Rebreaks g h) :
    anywhereStep inBase h = anywhereStep inBase g := by
  obtain ⟨split, rfl, hann⟩ := hgh
  by_cases h : g.annotates = true
  · rw [hann h]
  · have h' : ¬ ({ g with split } : Glyph α τ).annotates = true := h
    rw [anywhereStep, anywhereStep, if_neg h, if_neg h']
    rfl

theorem markAnywhere_rebreaks (h : List.Forall₂ Rebreaks gs hs) :
    markAnywhere hs = markAnywhere gs := by
  have hsteps : ∀ (s t : InBase) (g k : Glyph α τ), s = t → Rebreaks g k →
      (anywhereStep s g).1 = (anywhereStep t k).1 ∧
        (anywhereStep s g).2 = (anywhereStep t k).2 := by
    rintro s _ g k rfl hgk
    rw [anywhereStep_rebreaks s hgk]
    exact ⟨rfl, rfl⟩
  have hrun := (sweep_related hsteps h (rfl : false = false)).2
  exact (List.forall₂_eq_eq_eq ▸ hrun : _ = _).symm

end Single

section Pairs

/-- A glyph that differs in its split at most, not at all if it annotates, and hangs if the other
does. -/
def Glyph.Rehangs (g h : Glyph α τ) : Prop :=
  Rebreaks g h ∧ (g.annotates = false → (g.split = .hang ↔ h.split = .hang))

theorem withMark_again (g : Glyph α τ) (mark : Option Split) :
    (g.withMark mark).withMark mark = g.withMark mark := by
  have hann : ∀ split, ({ g with split } : Glyph α τ).annotates = g.annotates := fun _ => rfl
  by_cases h : g.annotates = true
  · simp [withMark, h]
  · cases mark with
    | some split => simp [withMark, h, hann]
    | none =>
      by_cases hhang : g.split = .hang
      · simp [withMark, h, hhang]
      · simp [withMark, h, hhang, hann]

theorem withMark_rehangs {g h : Glyph α τ} (hgh : Rehangs g h) (mark : Option Split) :
    h.withMark mark = g.withMark mark := by
  obtain ⟨⟨split, rfl, hkeep⟩, hhang⟩ := hgh
  by_cases hann : g.annotates = true
  · rw [hkeep hann]
  · have hann' : ¬ ({ g with split } : Glyph α τ).annotates = true := hann
    unfold withMark
    rw [if_neg hann, if_neg hann']
    cases mark with
    | some _ => rfl
    | none =>
      by_cases h : g.split = .hang
      · -- where both hang the splits are the same, though neither is written
        have h' : split = .hang := (hhang (by simpa using hann)).mp h
        have hsame : ({ g with split := Split.hang } : Glyph α τ) = g := by rw [← h]
        simp [h, h', hsame]
      · have h' : split ≠ .hang := fun h' => h ((hhang (by simpa using hann)).mpr h')
        simp [h, h']

variable (table : ClassTable) (profile : Profile) (noIdeographs : Bool)

/-- The pair rules do not look at the breaks of a text. -/
theorem pairMarks_resplit (h : List.Forall₂ Resplit gs hs) :
    pairMarks (glyphClass table profile noIdeographs) hs =
      pairMarks (glyphClass table profile noIdeographs) gs := by
  have hstep : ∀ ⦃s t : PairScan⦄, s = t → ∀ ⦃p q : Glyph α τ × ℕ⦄,
      Resplit p.1 q.1 ∧ p.2 = q.2 → s.step (glyphClass table profile noIdeographs) p =
        t.step (glyphClass table profile noIdeographs) q := by
    rintro s _ rfl ⟨g, i⟩ ⟨_, _⟩ ⟨⟨split, rfl⟩, rfl⟩
    rfl
  have hrun := List.rel_foldl hstep (rfl : PairScan.start = .start) (forall₂_zipIdx h 0)
  exact congrArg PairScan.marks hrun.symm

theorem markPairs_again (gs : List (Glyph α τ)) :
    markPairs (glyphClass table profile noIdeographs)
        (markPairs (glyphClass table profile noIdeographs) gs) =
      markPairs (glyphClass table profile noIdeographs) gs := by
  have hresplit := (rebreaks_markPairs (glyphClass table profile noIdeographs) gs).imp
    fun _ _ => Rebreaks.resplit
  apply List.ext_getElem?
  intro i
  rw [getElem?_markPairs, pairMarks_resplit table profile noIdeographs hresplit,
    getElem?_markPairs, Option.map_map]
  simp only [Function.comp_def, withMark_again]

theorem markPairs_rehangs (h : List.Forall₂ Rehangs gs hs) :
    markPairs (glyphClass table profile noIdeographs) hs =
      markPairs (glyphClass table profile noIdeographs) gs := by
  have hmarks := pairMarks_resplit table profile noIdeographs (h.imp fun _ _ hgh => hgh.1.resplit)
  rw [markPairs, hmarks]
  refine map_eq_of_forall₂ (forall₂_zipIdx h 0) ?_
  rintro ⟨g, i⟩ _ ⟨_, _⟩ ⟨hgh, rfl⟩
  exact withMark_rehangs hgh _

end Pairs

theorem mark_again (table : ClassTable) (c : Classifier) (gs : List (Glyph α τ)) :
    c.mark table (c.mark table gs) = c.mark table gs := by
  cases c with
  | western => exact congrArg Prod.snd (sweep_idem westernStep_again false gs)
  | anywhere => exact markAnywhere_rebreaks (rebreaks_markAnywhere gs)
  | pairs profile noIdeographs => exact markPairs_again table profile noIdeographs gs

/-- A classifier marks a text once and for all, writes splits of text alone, and, unless it marks
spaces and objects only, makes nothing of the breaks that it finds: between any two glyphs none of
them counts, and under the pair rules only which glyphs hang. -/
theorem mark_overwrites (table : ClassTable) (c : Classifier) (gs hs : List (Glyph α τ)) :
    c.mark table (c.mark table gs) = c.mark table gs ∧
      List.Forall₂ Rebreaks gs (c.mark table gs) ∧
      (c = .anywhere → List.Forall₂ Rebreaks gs hs → c.mark table hs = c.mark table gs) ∧
      (∀ profile noIdeographs, c = .pairs profile noIdeographs → List.Forall₂ Rehangs gs hs →
        c.mark table hs = c.mark table gs) := by
  refine ⟨mark_again table c gs, rebreaks_mark table c gs, ?_, ?_⟩
  · rintro rfl h
    exact markAnywhere_rebreaks h
  · rintro profile noIdeographs rfl h
    exact markPairs_rehangs table profile noIdeographs h

/-- A base of two glyphs with breaks in it, its reading, a hanging space and a letter. -/
def staleBreaks : List (Glyph ℚ ℚ) :=
  [{ (.ofCode 0x6771 1 : Glyph ℚ ℚ) with ruby := .base, split := .replace },
    { (.ofCode 0x4EAC 1 : Glyph ℚ ℚ) with ruby := .base, split := .before },
    { (.ofCode 120 1 : Glyph ℚ ℚ) with ruby := .above, split := .before },
    { (.ofCode 32 1 : Glyph ℚ ℚ) with split := .hang }, .ofCode 97 1]

/-- The same text with other breaks, and the same glyph hanging. -/
def otherBreaks : List (Glyph ℚ ℚ) :=
  [{ (.ofCode 0x6771 1 : Glyph ℚ ℚ) with ruby := .base },
    { (.ofCode 0x4EAC 1 : Glyph ℚ ℚ) with ruby := .base, split := .replace },
    { (.ofCode 120 1 : Glyph ℚ ℚ) with ruby := .above, split := .before },
    { (.ofCode 32 1 : Glyph ℚ ℚ) with split := .hang },
    { (.ofCode 97 1 : Glyph ℚ ℚ) with split := .before }]

theorem mark_overwrites_staleBreaks :
    ((Classifier.pairs .western false).mark .default staleBreaks).map split =
        [.none, .none, .before, .replace, .none] ∧
      (Classifier.anywhere.mark .default staleBreaks).map split =
        [.before, .none, .before, .replace, .before] ∧
      (Classifier.pairs .western false).mark .default otherBreaks =
        (Classifier.pairs .western false).mark .default staleBreaks ∧
      Classifier.anywhere.mark .default otherBreaks =
        Classifier.anywhere.mark .default staleBreaks := by
  have hrehangs : List.Forall₂ Rehangs staleBreaks otherBreaks := by
    refine .cons ?_ (.cons ?_ (.cons ?_ (.cons ?_ (.cons ?_ .nil)))) <;>
      exact ⟨⟨_, rfl, by decide⟩, by decide⟩
  have hrebreaks := hrehangs.imp fun _ _ h => h.1
  obtain ⟨_, _, _, hpairs⟩ :=
    mark_overwrites .default (.pairs .western false) staleBreaks otherBreaks
  obtain ⟨_, _, hanywhere, _⟩ := mark_overwrites .default .anywhere staleBreaks otherBreaks
  exact ⟨by decide +kernel, by decide +kernel, hpairs _ _ rfl hrehangs, hanywhere rfl hrebreaks⟩

end Typeset
