import Typeset.Proofs.Alignment
import Typeset.Proofs.BaseRuns

/-!
# Annotations on the middle of their base

A run of annotations is set so that its middle is that of its base. The base keeps its glyphs
together, so alignment moves it and its annotations as one piece, unless a space in it widens.
-/

namespace Typeset

open Glyph

section Extent

variable {τ : Type} {d left right left' right' : ℚ} {base base' run run' : List (Glyph ℚ τ)}
  {e : BaseExtent ℚ} {g : Glyph ℚ τ}

/-- The ink of some glyphs reaches from one edge to another. -/
structure HasExtent (gs : List (Glyph ℚ τ)) (left right : ℚ) : Prop where
  left : IsLeast {x | ∃ g ∈ gs, g.x = x} left
  right : IsGreatest {x | ∃ g ∈ gs, g.x + g.width = x} right

/-- The middle of a run, from its first glyph to the ink of its last, is the middle of its base. -/
def CentredOn (base run : List (Glyph ℚ τ)) : Prop :=
  ∃ left right first last, HasExtent base left right ∧ run.head? = some first ∧
    run.getLast? = some last ∧ (first.x + (last.x + last.width)) / 2 = (left + right) / 2

theorem HasExtent.eq (h : HasExtent base left right) (h' : HasExtent base left' right') :
    left = left' ∧ right = right' :=
  ⟨h.left.unique h'.left, h.right.unique h'.right⟩

/-- The extent that some glyphs leave, edge by edge. -/
theorem foldl_extend (e : BaseExtent ℚ) (rest : List (Glyph ℚ τ)) :
    rest.foldl BaseExtent.extend e =
      { left := rest.foldl (fun m g => Scalar.smaller m g.x) e.left
        right := rest.foldl (fun m g => Scalar.larger m (g.x + g.width)) e.right
        baseline := e.baseline
        ascent := rest.foldl (fun m g => Scalar.larger m g.ascent) e.ascent
        descent := rest.foldl (fun m g => Scalar.larger m g.descent) e.descent } := by
  induction rest generalizing e with
  | nil => rfl
  | cons g rest ih => exact ih (e.extend g)

/-- The extent that a run of base glyphs leaves for its annotations. -/
theorem hasExtent_foldl (g : Glyph ℚ τ) (rest : List (Glyph ℚ τ)) :
    HasExtent (g :: rest) (rest.foldl BaseExtent.extend (.ofGlyph g)).left
      (rest.foldl BaseExtent.extend (.ofGlyph g)).right := by
  rw [foldl_extend]
  exact ⟨isLeast_foldl_cons Glyph.x g rest, isGreatest_foldl_cons (fun k => k.x + k.width) g rest⟩

theorem centredOn_cons_iff {g : Glyph ℚ τ} {rest : List (Glyph ℚ τ)} : CentredOn (g :: rest) run ↔
    ∃ first ∈ run.head?, ∃ last ∈ run.getLast?, (first.x + (last.x + last.width)) / 2 =
      (rest.foldl BaseExtent.extend (.ofGlyph g)).centre := by
  have hextent := hasExtent_foldl g rest
  constructor
  · rintro ⟨left, right, first, last, h, hfirst, hlast, hmiddle⟩
    obtain ⟨rfl, rfl⟩ := h.eq hextent
    exact ⟨first, hfirst, last, hlast, hmiddle⟩
  · rintro ⟨first, hfirst, last, hlast, hmiddle⟩
    exact ⟨_, _, first, last, hextent, hfirst, hlast, hmiddle⟩

instance : (base run : List (Glyph ℚ τ)) → Decidable (CentredOn base run)
  | [], _ => .isFalse fun ⟨_, _, _, _, h, _⟩ => by
    obtain ⟨⟨_, hg, _⟩, _⟩ := h.left
    cases hg
  | _ :: _, _ => decidable_of_iff' _ centredOn_cons_iff

theorem HasExtent.moved (h : HasExtent base left right)
    (hmoved : List.Forall₂ (MovedBy d) base base') : HasExtent base' (left + d) (right + d) := by
  have hedges : ∀ f : Glyph ℚ τ → ℚ, (∀ g k, MovedBy d g k → f k = f g + d) →
      {x | ∃ k ∈ base', f k = x} = (fun x => x + d) '' {x | ∃ k ∈ base, f k = x} := by
    intro f hf
    have hmap := map_eq_of_forall₂ (f := fun g => f g + d) hmoved fun g _ k => hf g k
    ext x
    constructor
    · intro hx
      have hmem : x ∈ base.map fun g => f g + d := hmap ▸ List.mem_map.mpr hx
      obtain ⟨g, hg, rfl⟩ := List.mem_map.mp hmem
      exact ⟨f g, ⟨g, hg, rfl⟩, rfl⟩
    · rintro ⟨_, ⟨g, hg, rfl⟩, rfl⟩
      have hmem : f g + d ∈ base'.map f := hmap ▸ List.mem_map.mpr ⟨g, hg, rfl⟩
      exact List.mem_map.mp hmem
  have hmono : Monotone fun x : ℚ => x + d := fun _ _ hle => by simpa using hle
  constructor
  · rw [hedges Glyph.x fun _ _ hk => hk.x]
    exact hmono.map_isLeast h.left
  · rw [hedges (fun k => k.x + k.width) fun g k hk => by rw [hk.x, hk.width, add_right_comm]]
    exact hmono.map_isGreatest h.right

/-- Moving a run and its base alike keeps the run on the middle of its base. -/
theorem CentredOn.moved (h : CentredOn base run) (hbase : List.Forall₂ (MovedBy d) base base')
    (hrun : List.Forall₂ (MovedBy d) run run') : CentredOn base' run' := by
  obtain ⟨left, right, first, last, hextent, hfirst, hlast, hmiddle⟩ := h
  have hat : ∀ {i : ℕ} {g : Glyph ℚ τ}, run[i]? = some g → ∃ k, run'[i]? = some k ∧ MovedBy d g k :=
    fun hg => exists_left_of_forall₂ hrun.flip hg
  rw [List.head?_eq_getElem?] at hfirst
  rw [List.getLast?_eq_getElem?] at hlast
  obtain ⟨first', hfirst', hx⟩ := hat hfirst
  obtain ⟨last', hlast', hx'⟩ := hat hlast
  refine ⟨left + d, right + d, first', last', hextent.moved hbase, ?_, ?_, ?_⟩
  · rw [List.head?_eq_getElem?, hfirst']
  · rw [List.getLast?_eq_getElem?, ← hrun.length_eq, hlast']
  · rw [hx.x, hx'.x, hx'.width]
    linarith

/-- A cursor that moves by advances has moved by their sum. -/
theorem sweep_advance {β : Type} (f : ℚ → Glyph ℚ τ → β) (x : ℚ) (run : List (Glyph ℚ τ)) :
    (sweep (fun x g => (x + g.advance, f x g)) x run).1 = x + (run.map Glyph.advance).sum := by
  induction run generalizing x with
  | nil => simp
  | cons g run ih => rw [sweep_cons, ih, List.map_cons, List.sum_cons, add_assoc]

theorem runWidth_concat (init : List (Glyph ℚ τ)) (last : Glyph ℚ τ) :
    runWidth (init ++ [last]) = (init.map Glyph.advance).sum + last.width := by
  have hsum : ∀ (x : ℚ) (run : List (Glyph ℚ τ)),
      run.foldl (fun sum g => sum + g.advance) x = x + (run.map Glyph.advance).sum := by
    intro x run
    induction run generalizing x with
    | nil => simp
    | cons g run ih => rw [List.foldl_cons, ih, List.map_cons, List.sum_cons, add_assoc]
  simp only [runWidth, hsum, List.getLast?_concat, List.map_append, List.sum_append, List.map_cons,
    List.map_nil, List.sum_cons, List.sum_nil]
  ring

theorem centredOn_centreRun (offsets : RubyOffsets ℚ) (h : HasExtent base e.left e.right)
    (hrun : run ≠ []) : CentredOn base (centreRun offsets e run) := by
  obtain ⟨init, last, rfl⟩ := (List.eq_nil_or_concat' run).resolve_left hrun
  have hfirst : ∃ first, (centreRun offsets e (init ++ [last])).head? = some first ∧
      first.x = e.centre - runWidth (init ++ [last]) / ((2 : ℕ) : ℚ) := by
    rw [List.head?_eq_getElem?, centreRun, getElem?_sweep]
    cases init <;> exact ⟨_, rfl, rfl⟩
  obtain ⟨first, hfirst, hx⟩ := hfirst
  have hlast : (centreRun offsets e (init ++ [last])).getLast? =
      some { last with
        x := first.x + (init.map Glyph.advance).sum, y := annotationY offsets e last } := by
    rw [centreRun, sweep_append, sweep_cons, sweep_nil, sweep_advance, hx]
    exact List.getLast?_concat ..
  refine ⟨e.left, e.right, first, _, h, hfirst, hlast, ?_⟩
  dsimp only
  rw [hx, runWidth_concat, BaseExtent.centre]
  push_cast
  ring

end Extent

section Runs

variable {α τ : Type} {gs hs : List (Glyph α τ)} {role : RubyRole} {s r b : Span} {i : ℕ}

/-- A run of annotations of one role, as long as it goes. -/
structure Glyph.IsReading (gs : List (Glyph α τ)) (role : RubyRole) (r : Span) : Prop
    extends IsRun gs role r where
  annotates : role.annotates = true

/-- One run ends at the position and another starts there. -/
def Glyph.Seam (gs : List (Glyph α τ)) (n : ℕ) : Prop :=
  ∀ g h, 0 < n → gs[n - 1]? = some g → gs[n]? = some h → sameRun g h = false

/-- The runs before a seam are runs of the text. -/
theorem splitBy_take (hseam : Seam gs s.start) (hle : s.start ≤ s.stop) :
    (gs.take s.stop).splitBy sameRun =
      (gs.take s.start).splitBy sameRun ++ (s.slice gs).splitBy sameRun := by
  have htake : gs.take s.stop = gs.take s.start ++ s.slice gs := by
    conv_lhs => rw [← Nat.add_sub_cancel' hle]
    exact List.take_add
  rw [htake]
  refine List.splitBy_append fun x hx y hy => ?_
  rw [Option.mem_def, List.head?_eq_getElem?, Span.slice, List.getElem?_take] at hy
  split_ifs at hy with hpos
  rw [List.getElem?_drop, Nat.add_zero] at hy
  have hlength := (List.getElem?_eq_some_iff.mp hy).1
  rw [Option.mem_def, List.getLast?_eq_getElem?, List.length_take, min_eq_left hlength.le,
    List.getElem?_take] at hx
  split_ifs at hx with hstart
  exact hseam x y (by omega) hx hy

theorem ruby_eq_of_sameRun {g k : Glyph α τ} (h : sameRun g k = true) : g.ruby = k.ruby := by
  simp only [sameRun, Bool.and_eq_true, beq_iff_eq] at h
  exact h.1

theorem Glyph.IsRun.seam_start (h : IsRun gs role r) : Seam gs r.start := by
  intro g k hpos hg hk
  refine Bool.eq_false_iff.mpr fun hsame => h.left hpos ⟨g, hg, ?_⟩
  rw [ruby_eq_of_sameRun hsame, (h.inside r.start le_rfl h.lt).ruby_eq hk]

theorem Glyph.IsRun.seam_stop (h : IsRun gs role r) : Seam gs r.stop := by
  intro g k hpos hg hk
  have hlt := h.lt
  refine Bool.eq_false_iff.mpr fun hsame => h.right ⟨k, hk, ?_⟩
  rw [← ruby_eq_of_sameRun hsame, (h.inside (r.stop - 1) (by omega) (by omega)).ruby_eq hg]

theorem Glyph.IsRun.ruby_slice (h : IsRun gs role r) : ∀ g ∈ r.slice gs, g.ruby = role := by
  intro g hg
  obtain ⟨i, hstart, hstop, hi⟩ := Span.mem_slice.mp hg
  exact (h.inside i hstart hstop).ruby_eq hi

theorem Glyph.IsRun.slice_ne_nil (h : IsRun gs role r) : r.slice gs ≠ [] := by
  obtain ⟨g, hg, _⟩ := h.inside r.start le_rfl h.lt
  exact List.ne_nil_of_mem (Span.mem_slice.mpr ⟨r.start, le_rfl, h.lt, hg⟩)

theorem Glyph.IsRun.splitBy_slice (h : IsRun gs role r) (hrole : role ≠ .plain) :
    (r.slice gs).splitBy sameRun = [r.slice gs] := by
  refine List.splitBy_of_isChain h.slice_ne_nil (List.Pairwise.isChain ?_)
  refine List.pairwise_of_forall_mem_list fun g hg k hk => ?_
  simp [sameRun, h.ruby_slice g hg, h.ruby_slice k hk, hrole]

theorem Glyph.IsReading.ne_plain (h : IsReading gs role r) : role ≠ .plain := by
  rintro rfl
  cases h.annotates

theorem Glyph.IsBaseOf.seam_start (h : IsBaseOf gs i b) : Seam gs b.start := by
  rcases h.text with ⟨hplain, _⟩ | hrun
  · intro g k _ _ hk
    refine Bool.eq_false_iff.mpr fun hsame => ?_
    simp [sameRun, ruby_eq_of_sameRun hsame, hplain.ruby_eq hk] at hsame
  · exact hrun.seam_start

theorem Glyph.IsBaseOf.seam_stop (h : IsBaseOf gs i b) : Seam gs b.stop := by
  intro g k hpos hg hk
  have hlt := h.lt
  have hnot := h.not_annotationAt (k := b.stop - 1) (by omega) (by omega)
  refine Bool.eq_false_iff.mpr fun hsame => hnot ⟨g, hg, ?_⟩
  obtain ⟨k', hk', hann⟩ := h.annotated b.stop le_rfl h.le
  rw [hk] at hk'
  obtain rfl := Option.some.inj hk'
  rwa [annotates, ruby_eq_of_sameRun hsame]

theorem Glyph.IsBaseOf.text_slice (h : IsBaseOf gs i b) :
    ∀ g ∈ b.slice gs, g.annotates = false := by
  intro g hg
  obtain ⟨k, hstart, hstop, hk⟩ := Span.mem_slice.mp hg
  exact Bool.eq_false_iff.mpr fun hann => h.not_annotationAt hstart hstop ⟨g, hk, hann⟩

theorem Glyph.IsBaseOf.splitBy_slice (h : IsBaseOf gs i b) :
    ∃ g rest, b.slice gs = g :: rest ∧ g.annotates = false ∧
      (b.slice gs).splitBy sameRun = [g :: rest] := by
  have hsplit : (b.slice gs).splitBy sameRun = [b.slice gs] ∧ b.slice gs ≠ [] := by
    rcases h.text with ⟨⟨g, hg, _⟩, hone⟩ | hrun
    · have hslice : b.slice gs = [g] := by
        rw [Span.slice, hone, Nat.add_sub_cancel_left, List.take_one, List.head?_drop, hg]
        rfl
      rw [hslice]
      exact ⟨List.splitBy_of_isChain (by simp) (.singleton g), by simp⟩
    · exact ⟨hrun.splitBy_slice (by simp), hrun.slice_ne_nil⟩
  obtain ⟨g, rest, hslice⟩ := List.exists_cons_of_ne_nil hsplit.2
  exact ⟨g, rest, hslice, h.text_slice g (by simp [hslice]), by rw [hsplit.1, hslice]⟩

end Runs

section Placing

variable {τ : Type} {gs : List (Glyph ℚ τ)} {offsets : RubyOffsets ℚ} {role : RubyRole}
  {r b : Span} {i : ℕ}

/-- The extent on which annotations at a position are set. -/
def extentBefore (offsets : RubyOffsets ℚ) (gs : List (Glyph ℚ τ)) (i : ℕ) : BaseExtent ℚ :=
  (sweep (annotateStep offsets) .origin ((gs.take i).splitBy sameRun)).1

/-- Annotations leave the base to those that follow. -/
theorem sweep_annotateStep (e : BaseExtent ℚ) {runs : List (List (Glyph ℚ τ))}
    (h : ∀ run ∈ runs, ∀ g ∈ run, g.annotates = true) :
    (sweep (annotateStep offsets) e runs).1 = e := by
  induction runs with
  | nil => rfl
  | cons run runs ih =>
    have hstep : (annotateStep offsets e run).1 = e := by
      cases run with
      | nil => rfl
      | cons g rest =>
        have hann := h (g :: rest) (by simp) g (by simp)
        rw [annotateStep, if_pos hann]
    rw [sweep_cons, hstep, ih fun run hrun => h run (by simp [hrun])]

/-- The extent before an annotation is that of its base. -/
theorem exists_extentBefore (h : IsBaseOf gs i b) : ∃ g rest, b.slice gs = g :: rest ∧
    extentBefore offsets gs i = rest.foldl BaseExtent.extend (.ofGlyph g) := by
  obtain ⟨g, rest, hslice, hann, hsplit⟩ := h.splitBy_slice
  have hbetween : ∀ run ∈ ((⟨b.stop, i⟩ : Span).slice gs).splitBy sameRun,
      ∀ g ∈ run, g.annotates = true := by
    intro run hrun g hg
    have hmem : g ∈ (⟨b.stop, i⟩ : Span).slice gs := by
      rw [← List.flatten_splitBy sameRun ((⟨b.stop, i⟩ : Span).slice gs)]
      exact List.mem_flatten_of_mem hrun hg
    obtain ⟨k, hstart, hstop, hk⟩ := Span.mem_slice.mp hmem
    obtain ⟨g', hg', hann'⟩ := h.annotated k hstart (Nat.le_of_lt hstop)
    rw [hk] at hg'
    exact Option.some.inj hg' ▸ hann'
  refine ⟨g, rest, hslice, ?_⟩
  rw [extentBefore, splitBy_take (s := ⟨b.stop, i⟩) h.seam_stop h.le, sweep_append,
    sweep_annotateStep _ hbetween]
  dsimp only
  rw [splitBy_take h.seam_start h.lt.le, hsplit, sweep_append, sweep_cons, annotateStep, hann]
  rfl

theorem hasExtent_extentBefore (h : IsBaseOf gs i b) :
    HasExtent (b.slice gs) (extentBefore offsets gs i).left (extentBefore offsets gs i).right := by
  obtain ⟨g, rest, hslice, hextent⟩ := exists_extentBefore h
  rw [hextent, hslice]
  exact hasExtent_foldl g rest

theorem slice_placeAnnotations (h : IsReading gs role r) :
    r.slice (placeAnnotations offsets gs) =
      centreRun offsets (extentBefore offsets gs r.start) (r.slice gs) := by
  have hlt := h.lt
  have hle := h.stop_le
  have hruns : gs.splitBy sameRun = (gs.take r.start).splitBy sameRun ++
      (r.slice gs :: ((⟨r.stop, gs.length⟩ : Span).slice gs).splitBy sameRun) := by
    have htail := splitBy_take (s := ⟨r.stop, gs.length⟩) h.seam_stop (by dsimp only; omega)
    rw [List.take_length] at htail
    rw [htail, splitBy_take h.seam_start hlt.le, h.splitBy_slice h.ne_plain, List.append_assoc]
    rfl
  have hstep : annotateStep offsets (extentBefore offsets gs r.start) (r.slice gs) =
      (extentBefore offsets gs r.start,
        centreRun offsets (extentBefore offsets gs r.start) (r.slice gs)) := by
    obtain ⟨g, rest, hslice⟩ := List.exists_cons_of_ne_nil h.slice_ne_nil
    have hann : g.annotates = true := by
      rw [Glyph.annotates, h.ruby_slice g (by simp [hslice]), h.annotates]
    rw [hslice, annotateStep, if_pos hann]
  rw [placeAnnotations, hruns, sweep_append, sweep_cons, ← extentBefore, hstep,
    List.flatten_append, List.flatten_cons, ← placeAnnotations]
  refine Span.slice_append_mid ?_ ?_ _
  · rw [← (stays_placeAnnotations offsets (gs.take r.start)).length_eq, List.length_take]
    omega
  · rw [centreRun, length_sweep]
    exact r.length_slice gs (by simp only [Span.fits, Bool.and_eq_true, decide_eq_true_eq]; omega)

/-- Every run of annotations is set on the middle of its base. -/
theorem centredOn_placeAnnotations (hr : IsReading gs role r) (hb : IsBaseOf gs r.start b) :
    CentredOn (b.slice (placeAnnotations offsets gs)) (r.slice (placeAnnotations offsets gs)) := by
  have hbase : List.Forall₂ (MovedBy 0) (b.slice gs) (b.slice (placeAnnotations offsets gs)) := by
    have hslice : List.Forall₂ Stays (b.slice gs) (b.slice (placeAnnotations offsets gs)) :=
      forall₂_span (stays_placeAnnotations offsets gs) b
    apply ((List.forall₂_and_left _ _).mpr ⟨hb.text_slice, hslice⟩).imp
    exact fun g k hk => ⟨hk.2.toKeeps, by rw [hk.2.x hk.1, add_zero]⟩
  rw [slice_placeAnnotations hr]
  refine centredOn_centreRun offsets ?_ hr.slice_ne_nil
  simpa using (hasExtent_extentBefore hb).moved hbase

/-- Base and annotations widen where the base does. -/
theorem Glyph.IsReading.not_widens {a : Alignment ℚ} {ends : Bool} (hr : IsReading gs role r)
    (hb : IsBaseOf gs r.start b) (hstill : ¬ Widens a ends (b.slice gs)) :
    ¬ Widens a ends ((⟨b.start, r.stop⟩ : Span).slice gs) := by
  rintro ⟨hjustify, hends, g, hg, hstretches⟩
  obtain ⟨i, hi, hi', hgi⟩ := Span.mem_slice.mp hg
  have hnot : ¬ AnnotationAt gs i := by
    rintro ⟨k, hk, hann⟩
    obtain rfl := Option.some.inj (hgi.symm.trans hk)
    simp [stretches, hann] at hstretches
  refine hstill ⟨hjustify, hends, g, Span.mem_slice.mpr ⟨i, hi, not_le.mp fun hge => ?_, hgi⟩,
    hstretches⟩
  rcases Nat.le_total i r.start with hle | hle
  · exact hnot (hb.annotated i hge hle)
  · obtain ⟨k, hk, hrole⟩ := hr.inside i hle hi'
    exact hnot ⟨k, hk, by rw [Glyph.annotates, hrole, hr.annotates]⟩

end Placing

section Layout

variable {τ : Type} [Scalar τ] {s : Style ℚ τ} {table : ClassTable} {startTime : τ}
  {pre post : List (List (Glyph ℚ τ))} {gs : List (Glyph ℚ τ)} {role : RubyRole} {r b : Span}

theorem centredOn_layParagraph (start : Style.Start ℚ τ)
    (hr : IsReading (s.layParagraph table start gs).2.2 role r)
    (hb : IsBaseOf (s.layParagraph table start gs).2.2 r.start b) :
    CentredOn (b.slice (s.layParagraph table start gs).2.2)
      (r.slice (s.layParagraph table start gs).2.2) := by
  rw [Style.layParagraph] at hr hb ⊢
  dsimp only at hr hb ⊢
  generalize (placeDown _ _ _ : Stacked ℚ τ).glyphs = stacked at hr hb ⊢
  have hplaced := stays_placeAnnotations s.rubyOffsets stacked
  have htimed : List.Forall₂ (MovedBy 0) (placeAnnotations s.rubyOffsets stacked)
      (assignTimes start.time s.rate (placeAnnotations s.rubyOffsets stacked)).2 := by
    apply (written_assignTimes start.time s.rate _).imp
    rintro g _ ⟨time, duration, rfl, _⟩
    exact ⟨keeps_with .., (add_zero _).symm⟩
  have hruby := (map_eq_of_forall₂ (f := ruby) htimed fun _ _ _ h => h.ruby).trans
    (map_eq_of_forall₂ hplaced fun _ _ _ h => h.ruby)
  exact (centredOn_placeAnnotations ⟨hr.toIsRun.congr hruby, hr.annotates⟩ (hb.congr hruby)).moved
    (forall₂_span htimed b) (forall₂_span htimed r)

/-- Annotations stand on the middle of their base in the finished layout, where their line holds
the whole base and no space of the base is widened. -/
theorem layout_centres (s : Style ℚ τ) (table : ClassTable) (startTime : τ)
    (pre post : List (List (Glyph ℚ τ))) (gs : List (Glyph ℚ τ)) :
    let L := s.layout table startTime (pre ++ gs :: post)
    let start := pre.flatten.length
    let shown := (⟨start, start + gs.length⟩ : Span).slice L.glyphs
    ∀ role r b, IsReading shown role r → IsBaseOf shown r.start b → ∀ l ∈ L.lines,
      l.span.start ≤ start + b.start → start + r.stop ≤ l.span.stop →
      ¬ Widens s.alignment l.endsParagraph (b.slice shown) →
      CentredOn (b.slice shown) (r.slice shown) := by
  intro L start shown role r b hr hb l hl hstart hstop hstill
  have hblt := hb.lt
  have hrlt := hr.lt
  have hble := hb.le
  have hrgs : r.stop ≤ gs.length := by
    have hmem := hr.stop_le
    have hle : shown.length ≤ gs.length := by
      simp only [shown, Span.slice, List.length_take]
      omega
    omega
  let laid := (⟨start, start + gs.length⟩ : Span).slice
    (s.unaligned table startTime (pre ++ gs :: post))
  have hkeeps : List.Forall₂ Keeps laid shown :=
    forall₂_span (keeps_unaligned s table startTime _) _
  have hruby : shown.map ruby = laid.map ruby := map_eq_of_forall₂ hkeeps fun _ _ _ h => h.ruby
  have hcentred : CentredOn (b.slice laid) (r.slice laid) := by
    have hlaid : laid = _ := slice_unaligned s table startTime pre post gs
    have hr' : IsReading laid role r := ⟨hr.toIsRun.congr hruby, hr.annotates⟩
    have hb' := hb.congr hruby
    rw [hlaid] at hr' hb' ⊢
    exact centredOn_layParagraph _ hr' hb'
  -- base and annotations lie in one stretch of the line
  have hwhole : ∀ hs : List (Glyph ℚ τ), (⟨b.start, r.stop⟩ : Span).slice
      ((⟨start, start + gs.length⟩ : Span).slice hs) =
        (⟨start + b.start, start + r.stop⟩ : Span).slice hs := by
    intro hs
    rw [Span.slice_slice (by dsimp only; omega), Span.shift]
    dsimp only
    rw [Nat.add_comm b.start, Nat.add_comm r.stop]
  have hrigid : ¬ Widens s.alignment l.endsParagraph ((⟨b.start, r.stop⟩ : Span).slice laid) :=
    fun h => hr.not_widens hb hstill (h.keeps (forall₂_span hkeeps _))
  obtain ⟨d, hd⟩ := exists_movedBy_layout s table startTime (pre ++ gs :: post) hl
    (u := ⟨start + b.start, start + r.stop⟩) hstart (by dsimp only; omega) hstop
    (by rwa [← hwhole])
  rw [← hwhole, ← hwhole] at hd
  have hpart : ∀ t : Span, b.start ≤ t.start → t.start ≤ t.stop → t.stop ≤ r.stop →
      List.Forall₂ (MovedBy d) (t.slice laid) (t.slice shown) := by
    intro t hstart hle hstop
    rw [Span.slice_within (u := ⟨b.start, r.stop⟩) hstart hle hstop,
      Span.slice_within (u := ⟨b.start, r.stop⟩) hstart hle hstop]
    exact forall₂_span hd _
  exact hcentred.moved (hpart b le_rfl hblt.le (by omega)) (hpart r (by omega) hrlt.le le_rfl)

end Layout

/-- A style that justifies lines broken at spaces. -/
def justified : Style ℚ ℚ :=
  { Style.default.withWidth 4 with
    alignWidth := 6, alignment := Align.justify.toAlignment, language := .western }

/-- A letter, a base with its reading, and a word that goes to the next line; the glyphs between
the letter and the reading are given. -/
def readingAfter (middle : List (Glyph ℚ ℚ)) : List (Glyph ℚ ℚ) :=
  .ofCode 97 1 :: (middle ++
    [{ (.ofCode 120 1 : Glyph ℚ ℚ) with ruby := .above }, .ofCode 32 1, .ofCode 100 1])

/-- A space that widens, and a base without one. -/
def spaceBeforeBase : List (Glyph ℚ ℚ) :=
  readingAfter (.ofCode 32 1 :: markRuby .base [.ofCode 98 1, .ofCode 99 1])

/-- The finished glyphs of a justified paragraph. -/
def justifiedText (gs : List (Glyph ℚ ℚ)) : List (Glyph ℚ ℚ) :=
  (⟨0, 0 + gs.length⟩ : Span).slice (justified.layout .default 0 [gs]).glyphs

theorem layout_centres_spaceBeforeBase :
    IsReading (justifiedText spaceBeforeBase) .above ⟨4, 5⟩ ∧
      IsBaseOf (justifiedText spaceBeforeBase) 4 ⟨2, 4⟩ ∧
      CentredOn ((⟨2, 4⟩ : Span).slice (justifiedText spaceBeforeBase))
        ((⟨4, 5⟩ : Span).slice (justifiedText spaceBeforeBase)) := by
  have hline : (⟨0, 6⟩ : Span) ∈
      (justified.layout .default 0 [spaceBeforeBase]).lines.map Line.span := by
    decide +kernel
  obtain ⟨l, hl, hspan⟩ := List.mem_map.mp hline
  have hr : IsReading (justifiedText spaceBeforeBase) .above ⟨4, 5⟩ :=
    ⟨⟨by decide, by decide +kernel, by decide +kernel, by decide +kernel⟩, rfl⟩
  have hb : IsBaseOf (justifiedText spaceBeforeBase) 4 ⟨2, 4⟩ :=
    ⟨by decide, by decide +kernel,
      .inr ⟨by decide, by decide +kernel, by decide +kernel, by decide +kernel⟩⟩
  have hstill : ¬ Widens justified.alignment l.endsParagraph
      ((⟨2, 4⟩ : Span).slice (justifiedText spaceBeforeBase)) := by
    have hnone : ∀ g ∈ (⟨2, 4⟩ : Span).slice (justifiedText spaceBeforeBase),
        g.stretches = false := by
      decide +kernel
    rintro ⟨_, _, g, hg, hstretches⟩
    simp [hnone g hg] at hstretches
  exact ⟨hr, hb, layout_centres justified .default 0 [] [] spaceBeforeBase .above ⟨4, 5⟩ ⟨2, 4⟩ hr hb
    l hl (by simp [hspan]) (by simp [hspan]) hstill⟩

/-- A base with a space in it. -/
def spaceInBase : List (Glyph ℚ ℚ) :=
  readingAfter (markRuby .base [.ofCode 98 1, .ofCode 32 1, .ofCode 99 1])

/-- Where a space of the base widens, the reading moves with the glyphs behind the space, and off the
middle of the base. -/
theorem not_centredOn_spaceInBase :
    IsReading (justifiedText spaceInBase) .above ⟨4, 5⟩ ∧
      IsBaseOf (justifiedText spaceInBase) 4 ⟨1, 4⟩ ∧
      (∃ l ∈ (justified.layout .default 0 [spaceInBase]).lines, l.span = ⟨0, 6⟩) ∧
      ¬ CentredOn ((⟨1, 4⟩ : Span).slice (justifiedText spaceInBase))
        ((⟨4, 5⟩ : Span).slice (justifiedText spaceInBase)) := by
  refine ⟨⟨⟨by decide, by decide +kernel, by decide +kernel, by decide +kernel⟩, rfl⟩,
    ⟨by decide, by decide +kernel,
      .inr ⟨by decide, by decide +kernel, by decide +kernel, by decide +kernel⟩⟩, ?_, ?_⟩
  · decide +kernel
  · decide +kernel

end Typeset
