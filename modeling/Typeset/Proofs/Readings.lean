import Typeset.Proofs.Centring

/-!
# Annotations on their base

Every run of annotations that has text before it has one base, on whose middle it is set, with its
glyphs one advance apart and clear of the highest ascent or the lowest descent of the base. Only the
positions of annotations are written, and none of them is read, so placing annotations again changes
nothing.
-/

namespace Typeset

open Glyph

section Bases

variable {α τ : Type} {gs : List (Glyph α τ)} {i k : ℕ}

theorem roleAt_of_text {g : Glyph α τ} (hg : gs[k]? = some g) (hann : g.annotates = false) :
    PlainAt gs k ∨ BaseAt gs k := by
  cases hrole : g.ruby with
  | plain => exact .inl ⟨g, hg, hrole⟩
  | base => exact .inr ⟨g, hg, hrole⟩
  | above => simp [annotates, hrole, RubyRole.annotates] at hann
  | below => simp [annotates, hrole, RubyRole.annotates] at hann

/-- A base glyph with something else behind it ends a run of base glyphs. -/
theorem exists_isBaseRun (hbase : BaseAt gs k) (hnext : ¬ BaseAt gs (k + 1)) :
    ∃ start, IsBaseRun gs ⟨start, k + 1⟩ := by
  have hrun : ∃ start, start ≤ k ∧ ∀ j, start ≤ j → j < k + 1 → BaseAt gs j :=
    ⟨k, le_rfl, fun j hj hj' => by rwa [show j = k by omega]⟩
  classical
  -- the first position from which on only base glyphs stand
  obtain ⟨hle, hinside⟩ := Nat.find_spec hrun
  refine ⟨Nat.find hrun, Nat.lt_succ_of_le hle, hinside, fun hpos hbefore => ?_, hnext⟩
  apply Nat.find_min hrun (Nat.sub_lt hpos one_pos)
  refine ⟨by omega, fun j hj hj' => ?_⟩
  rcases Nat.lt_or_ge j (Nat.find hrun) with hlt | hge
  · rwa [show j = Nat.find hrun - 1 by omega]
  · exact hinside j hge hj'

/-- An annotation with text before it has a base. -/
theorem exists_isBaseOf (hi : AnnotationAt gs i) (htext : ∃ k < i, ¬ AnnotationAt gs k) :
    ∃ b, IsBaseOf gs i b := by
  obtain ⟨j, hj, htext⟩ := htext
  have hle : j ≤ i - 1 := by omega
  -- the last text before the annotation, with nothing but annotations in between
  have hlast := Nat.findGreatest_spec (P := fun k => ¬ AnnotationAt gs k) hle htext
  have hbound := Nat.findGreatest_le (P := fun k => ¬ AnnotationAt gs k) (i - 1)
  have hbetween : ∀ m, Nat.findGreatest (fun k => ¬ AnnotationAt gs k) (i - 1) < m → m ≤ i - 1 →
      ¬ ¬ AnnotationAt gs m := fun m => Nat.findGreatest_is_greatest
  generalize Nat.findGreatest (fun k => ¬ AnnotationAt gs k) (i - 1) = k at hlast hbound hbetween
  have hannotated : ∀ m, k + 1 ≤ m → m ≤ i → AnnotationAt gs m := by
    intro m hm hmi
    rcases Nat.lt_or_ge m i with hlt | hge
    · exact not_not.mp (hbetween m (by omega) (by omega))
    · rwa [show m = i by omega]
  obtain ⟨g, hg, _⟩ := id hi
  have hlength := (List.getElem?_eq_some_iff.mp hg).1
  have hk : gs[k]? = some gs[k] := List.getElem?_eq_getElem (by omega)
  have hann : gs[k].annotates = false := Bool.eq_false_iff.mpr fun h => hlast ⟨_, hk, h⟩
  have hki : k + 1 ≤ i := by omega
  rcases roleAt_of_text hk hann with hplain | hbase
  · exact ⟨⟨k, k + 1⟩, hki, hannotated, .inl ⟨hplain, rfl⟩⟩
  · have hnext : ¬ BaseAt gs (k + 1) := (hannotated (k + 1) le_rfl hki).not_roleAt rfl
    obtain ⟨start, hrun⟩ := exists_isBaseRun hbase hnext
    exact ⟨⟨start, k + 1⟩, hki, hannotated, .inr hrun⟩

end Bases

section Again

variable {α τ : Type} [Scalar α] {offsets : RubyOffsets α} {base : BaseExtent α}
  {run gs : List (Glyph α τ)}

/-- A glyph without its position, if it annotates. -/
def Glyph.unset (g : Glyph α τ) : Glyph α τ :=
  { g with x := if g.annotates then 0 else g.x, y := if g.annotates then 0 else g.y }

theorem unset_of_text {g : Glyph α τ} (h : g.annotates = false) : g.unset = g := by
  simp [unset, h]

theorem centreRun_unset : centreRun offsets base (run.map unset) = centreRun offsets base run := by
  unfold centreRun
  rw [runWidth_map (w := unset) (fun _ => rfl) fun _ => rfl]
  exact congrArg Prod.snd (sweep_map_left (fun _ _ _ => rfl) _)

theorem annotateStep_unset (hrun : ∀ g ∈ run, ∀ h ∈ run, g.ruby = h.ruby) :
    annotateStep offsets base (run.map unset) = annotateStep offsets base run := by
  cases hhead : run with
  | nil => rfl
  | cons g rest =>
    rw [← hhead]
    cases hann : g.annotates with
    | true =>
      have hset : g.unset.annotates = true := hann
      have hcentre : centreRun offsets base (run.map unset) = centreRun offsets base run :=
        centreRun_unset
      rw [hhead, List.map_cons] at hcentre
      simp [hhead, annotateStep, hann, hset, hcentre]
    | false =>
      have htext : ∀ h ∈ run, h.unset = h := by
        intro h hh
        apply unset_of_text
        rw [annotates, hrun h hh g (by simp [hhead]), ← annotates, hann]
      rw [List.map_congr_left htext, List.map_id']

/-- Where annotations stood tells nothing of where they are placed. -/
theorem placeAnnotations_unset (offsets : RubyOffsets α) (gs : List (Glyph α τ)) :
    placeAnnotations offsets (gs.map unset) = placeAnnotations offsets gs := by
  have hruns : (gs.map unset).splitBy sameRun = (gs.splitBy sameRun).map (List.map unset) :=
    (map_splitBy unset sameRun gs).symm
  have hsteps : ∀ base, ∀ run ∈ gs.splitBy sameRun,
      annotateStep offsets base (run.map unset) = annotateStep offsets base run :=
    fun _ _ hrun => annotateStep_unset (ruby_of_mem_run hrun)
  rw [placeAnnotations, hruns, sweep_map_left hsteps, placeAnnotations]

theorem map_unset_placeAnnotations (offsets : RubyOffsets α) (gs : List (Glyph α τ)) :
    (placeAnnotations offsets gs).map unset = gs.map unset := by
  apply map_eq_of_forall₂ (written_placeAnnotations offsets gs)
  rintro g _ _ ⟨x, y, rfl, htext⟩
  cases hann : g.annotates with
  | true =>
    have hset : ({ g with x, y } : Glyph α τ).annotates = true := hann
    simp [unset, hann, hset]
  | false => rw [htext hann]

theorem placeAnnotations_idem (offsets : RubyOffsets α) (gs : List (Glyph α τ)) :
    placeAnnotations offsets (placeAnnotations offsets gs) = placeAnnotations offsets gs := by
  rw [← placeAnnotations_unset, map_unset_placeAnnotations, placeAnnotations_unset]

end Again

section Heights

variable {τ : Type} {offsets : RubyOffsets ℚ} {base run gs : List (Glyph ℚ τ)}

/-- The heights that a base leaves for its annotations: the baseline of its first glyph, its highest
ascent and its lowest descent. -/
structure HasHeights (base : List (Glyph ℚ τ)) (baseline ascent descent : ℚ) : Prop where
  baseline : ∃ first, base.head? = some first ∧ first.y = baseline
  ascent : IsGreatest {a | ∃ g ∈ base, g.ascent = a} ascent
  descent : IsGreatest {d | ∃ g ∈ base, g.descent = d} descent

/-- A run of annotations stands on its base: on the middle of it, with its glyphs one advance apart,
and each glyph clear of the highest ascent of the base or of its lowest descent. -/
structure SetOn (offsets : RubyOffsets ℚ) (base run : List (Glyph ℚ τ)) : Prop where
  centred : CentredOn base run
  steps : run.IsChain fun g h => h.x = g.x + g.advance
  heights : ∃ baseline ascent descent, HasHeights base baseline ascent descent ∧ ∀ g ∈ run,
    (g.ruby = .above → g.y = baseline - ascent - g.descent - offsets.above) ∧
    (g.ruby = .below → g.y = baseline + descent + g.ascent + offsets.below)

theorem hasHeights_extentBefore (offsets : RubyOffsets ℚ) {i : ℕ} {b : Span}
    (h : IsBaseOf gs i b) : HasHeights (b.slice gs) (extentBefore offsets gs i).baseline
      (extentBefore offsets gs i).ascent (extentBefore offsets gs i).descent := by
  obtain ⟨g, rest, hslice, hextent⟩ := exists_extentBefore h
  rw [hextent, hslice, foldl_extend]
  exact ⟨⟨g, rfl, rfl⟩, isGreatest_foldl_cons Glyph.ascent g rest,
    isGreatest_foldl_cons Glyph.descent g rest⟩

theorem isChain_centreRun (offsets : RubyOffsets ℚ) (e : BaseExtent ℚ) (run : List (Glyph ℚ τ)) :
    (centreRun offsets e run).IsChain fun g h => h.x = g.x + g.advance := by
  apply isChain_sweep
  intro x g _ h _
  rfl

theorem y_centreRun (offsets : RubyOffsets ℚ) (e : BaseExtent ℚ) (run : List (Glyph ℚ τ)) :
    ∀ g ∈ centreRun offsets e run, g.y = annotationY offsets e g := by
  have hwritten : List.Forall₂ (fun _ g => g.y = annotationY offsets e g) run
      (centreRun offsets e run) := by
    apply forall₂_sweep
    intro x g _
    rfl
  exact forall_right_of_forall₂ hwritten fun _ _ hy => hy

theorem slice_base_placeAnnotations {i : ℕ} {b : Span} (h : IsBaseOf gs i b) :
    b.slice (placeAnnotations offsets gs) = b.slice gs := by
  have hwritten := forall₂_span (written_placeAnnotations offsets gs) b
  have hid := map_eq_of_forall₂ (f := id) (g := id) hwritten fun g hg k hk => by
    obtain ⟨x, y, _, htext⟩ := hk
    exact htext (h.text_slice g hg)
  simpa using hid

theorem setOn_placeAnnotations {role : RubyRole} {r b : Span} (hr : IsReading gs role r)
    (hb : IsBaseOf gs r.start b) :
    SetOn offsets (b.slice gs) (r.slice (placeAnnotations offsets gs)) := by
  rw [slice_placeAnnotations hr]
  refine ⟨centredOn_centreRun offsets (hasExtent_extentBefore hb) hr.slice_ne_nil,
    isChain_centreRun offsets _ _, ⟨_, _, _, hasHeights_extentBefore offsets hb, ?_⟩⟩
  intro g hg
  rw [y_centreRun offsets _ _ g hg, annotationY]
  constructor <;> intro hrole <;> simp [hrole]

end Heights

/-- Placing annotations writes positions of annotations alone. Each run with text before it has one
base, which stays where it is, and is set on it. A second time there is nothing to change. -/
theorem placeAnnotations_sets {τ : Type} (offsets : RubyOffsets ℚ) (gs : List (Glyph ℚ τ)) :
    let hs := placeAnnotations offsets gs
    List.Forall₂ (fun g h => ∃ x y, h = { g with x, y } ∧ (g.annotates = false → h = g)) gs hs ∧
      (∀ role r, IsReading gs role r →
        ((∃ k < r.start, ¬ AnnotationAt gs k) → ∃ b, IsBaseOf gs r.start b) ∧
        ∀ b, IsBaseOf gs r.start b →
          b.slice hs = b.slice gs ∧ SetOn offsets (b.slice hs) (r.slice hs)) ∧
      placeAnnotations offsets hs = hs := by
  refine ⟨written_placeAnnotations offsets gs, ?_, placeAnnotations_idem offsets gs⟩
  intro role r hr
  have hstart : AnnotationAt gs r.start := by
    obtain ⟨g, hg, hrole⟩ := hr.inside r.start le_rfl hr.lt
    exact ⟨g, hg, by rw [annotates, hrole, hr.annotates]⟩
  refine ⟨exists_isBaseOf hstart, ?_⟩
  intro b hb
  have hbase : b.slice (placeAnnotations offsets gs) = b.slice gs := slice_base_placeAnnotations hb
  exact ⟨hbase, hbase ▸ setOn_placeAnnotations hr hb⟩

/-- A base of two glyphs with a reading over it and, behind that, one under it. -/
def sharedBase : List (Glyph ℚ ℚ) :=
  [{ (.ofCode 97 2 : Glyph ℚ ℚ) with ruby := .base, ascent := 3, descent := 1 },
    { (.ofCode 98 2 : Glyph ℚ ℚ) with ruby := .base, x := 2, ascent := 4, descent := 1 },
    { (.ofCode 120 1 : Glyph ℚ ℚ) with ruby := .above, descent := 1 },
    { (.ofCode 121 1 : Glyph ℚ ℚ) with ruby := .above, descent := 1 },
    { (.ofCode 122 6 : Glyph ℚ ℚ) with ruby := .below, ascent := 2 }]

theorem placeAnnotations_sets_sharedBase :
    let hs := placeAnnotations ⟨1, 2⟩ sharedBase
    hs.map x = [0, 2, 1, 2, -1] ∧ hs.map y = [0, 0, -6, -6, 5] ∧
      SetOn ⟨1, 2⟩ ((⟨0, 2⟩ : Span).slice hs) ((⟨2, 4⟩ : Span).slice hs) ∧
      SetOn ⟨1, 2⟩ ((⟨0, 2⟩ : Span).slice hs) ((⟨4, 5⟩ : Span).slice hs) := by
  obtain ⟨_, hreadings, _⟩ := placeAnnotations_sets ⟨1, 2⟩ sharedBase
  have hrun : IsBaseRun sharedBase ⟨0, 2⟩ := ⟨by decide, by decide, by decide, by decide⟩
  have habove : IsReading sharedBase .above ⟨2, 4⟩ :=
    ⟨⟨by decide, by decide, by decide, by decide⟩, rfl⟩
  have hbelow : IsReading sharedBase .below ⟨4, 5⟩ :=
    ⟨⟨by decide, by decide, by decide, by decide⟩, rfl⟩
  exact ⟨by decide +kernel, by decide +kernel,
    ((hreadings _ _ habove).2 _ ⟨by decide, by decide, .inr hrun⟩).2,
    ((hreadings _ _ hbelow).2 _ ⟨by decide, by decide, .inr hrun⟩).2⟩

end Typeset
