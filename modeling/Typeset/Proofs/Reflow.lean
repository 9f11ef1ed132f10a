import Typeset.Proofs.Clock
import Typeset.Proofs.Paragraphs

/-!
# Setting a text anew

Every pass overwrites what a layout may have left in its glyphs. The passes are followed on glyphs
stripped of everything that is yet to be written: each pass needs one thing less to be stripped of,
until nothing is left. What remains when all of it is stripped a layout leaves alone.
-/

namespace Typeset

open Glyph

variable {α τ : Type}

namespace Glyph

/-- A glyph without a place in the order of reveal, unless it annotates. -/
def unnumbered (g : Glyph α τ) : Glyph α τ :=
  { g with index := if g.annotates then g.index else 0 }

variable [Scalar τ]

/-- A glyph without times as well. -/
def unclocked (g : Glyph α τ) : Glyph α τ := { g.unnumbered with time := 0, duration := 0 }

variable [Scalar α]

/-- An annotation without a place along the line as well. -/
def unseated (g : Glyph α τ) : Glyph α τ :=
  { g.unclocked with x := if g.annotates then 0 else g.x }

/-- A glyph without a baseline as well. -/
def unstacked (g : Glyph α τ) : Glyph α τ := { g.unseated with y := 0 }

/-- A glyph without any position. -/
def unplaced (g : Glyph α τ) : Glyph α τ := { g.unstacked with x := 0 }

/-- A glyph without breaks as well, so far as marking overwrites them. -/
def bare (g : Glyph α τ) : Glyph α τ :=
  { g.unplaced with split := if g.annotates || g.split == .hang then g.split else .none }

end Glyph

section Breaks

variable [Scalar α] [Scalar τ]

theorem bare_of_kept {g : Glyph α τ} (h : (g.annotates || g.split == .hang) = true) :
    g.bare = g.unplaced := by
  rw [bare, if_pos h]
  rfl

theorem bare_of_annotates {g : Glyph α τ} (h : g.annotates = true) : g.bare = g.unplaced :=
  bare_of_kept (by rw [h, Bool.true_or])

theorem markAnywhere_bare (gs : List (Glyph α τ)) :
    markAnywhere (gs.map bare) = (markAnywhere gs).map unplaced := by
  refine congrArg Prod.snd (sweep_map (fun inBase g _ => ?_) false)
  have hann : g.bare.annotates = g.annotates := rfl
  have hruby : g.bare.ruby = g.ruby := rfl
  have hspace : g.bare.isSpace = g.isSpace := rfl
  simp only [anywhereStep, hann, hruby, hspace]
  split_ifs with h
  · rw [bare_of_annotates h]
  · rfl
  · rfl
  · rfl

theorem withMark_bare (g : Glyph α τ) (mark : Option Split) :
    g.bare.withMark mark = (g.withMark mark).unplaced := by
  have hann : g.bare.annotates = g.annotates := rfl
  unfold withMark
  rw [hann]
  by_cases h : g.annotates = true
  · rw [if_pos h, if_pos h, bare_of_annotates h]
  · rw [if_neg h, if_neg h]
    cases mark with
    | some split => rfl
    | none =>
      dsimp only
      by_cases hhang : g.split = .hang
      · have hkept : g.bare = g.unplaced :=
          bare_of_kept (by rw [hhang, Bool.or_eq_true]; right; rfl)
        rw [hkept, if_pos hhang, if_pos (show g.unplaced.split = .hang from hhang)]
      · have hnone : g.bare.split ≠ .hang := by simp [bare, h, hhang]
        rw [if_neg hnone, if_neg hhang]
        rfl

theorem markPairs_bare (table : ClassTable) (profile : Profile) (noIdeographs : Bool)
    (gs : List (Glyph α τ)) :
    markPairs (glyphClass table profile noIdeographs) (gs.map bare) =
      (markPairs (glyphClass table profile noIdeographs) gs).map unplaced := by
  have hmarks : pairMarks (glyphClass table profile noIdeographs) (gs.map bare) =
      pairMarks (glyphClass table profile noIdeographs) gs := by
    rw [pairMarks, List.zipIdx_map, List.foldl_map]
    rfl
  unfold markPairs
  rw [hmarks, List.zipIdx_map, List.map_map, List.map_map]
  exact List.map_congr_left fun gi _ => withMark_bare gi.1 _

theorem mark_bare (table : ClassTable) {c : Classifier} (hc : c ≠ .western)
    (gs : List (Glyph α τ)) : c.mark table (gs.map bare) = (c.mark table gs).map unplaced := by
  cases c with
  | western => exact absurd rfl hc
  | anywhere => exact markAnywhere_bare gs
  | pairs profile noIdeographs => exact markPairs_bare table profile noIdeographs gs

theorem breakGreedy_unplaced (first rest : α) (gs : List (Glyph α τ)) :
    breakGreedy first rest (gs.map unplaced) = (breakGreedy first rest gs).map unplaced := by
  have htaken : takenBreaks first rest (gs.map unplaced) = takenBreaks first rest gs := by
    rw [takenBreaks, List.zipIdx_map, List.foldl_map]
    rfl
  unfold breakGreedy
  dsimp only
  rw [htaken, List.zipIdx_map, List.map_map, List.map_map]
  refine List.map_congr_left fun gi _ => ?_
  have hopp : gi.1.unplaced.isOpportunity = gi.1.isOpportunity := rfl
  simp only [Function.comp_apply, Prod.map, id, hopp]
  split_ifs
  · rfl
  · rfl

theorem breakLines_bare {s : Style α τ} (hs : s.mode = .unbroken ∨ s.language ≠ .western)
    (table : ClassTable) (gs : List (Glyph α τ)) :
    s.breakLines table (gs.map bare) = (s.breakLines table gs).map unplaced := by
  unfold Style.breakLines
  cases hmode : s.mode with
  | greedy =>
    have hc : s.language.classifier ≠ .western := by
      have hlanguage := hs.resolve_left (by simp [hmode])
      cases h : s.language with
      | western => exact absurd h hlanguage
      | _ => simp [Language.classifier]
    dsimp only
    rw [mark_bare table hc, breakGreedy_unplaced]
  | unbroken =>
    simp only [clearSplits, List.map_map]
    rfl

end Breaks

section Order

variable [Scalar α] [Scalar τ]

theorem orderLines_unplaced (s : Style α τ) (gs : List (Glyph α τ)) :
    s.orderLines (gs.map unplaced) = (s.orderLines gs).map unplaced := by
  have hkeeps : KeepsOrder (unplaced : Glyph α τ → Glyph α τ) :=
    ⟨fun _ => rfl, fun _ _ => rfl, fun _ => rfl⟩
  unfold Style.orderLines
  split_ifs
  · exact turnLines_map hkeeps gs
  · rfl

end Order

section Place

variable [Scalar α] [Scalar τ]

theorem placeAcross_unplaced (start first rest : α) (gs : List (Glyph α τ)) :
    placeAcross start first rest (gs.map unplaced) =
      (placeAcross start first rest gs).map unstacked := by
  refine congrArg Prod.snd (sweep_map (fun x g _ => ?_) (start + first))
  have hann : g.unplaced.annotates = g.annotates := rfl
  have hsplit : g.unplaced.split = g.split := rfl
  unfold cursorStep
  rw [hann, hsplit]
  split_ifs with h
  · simp [unplaced, unstacked, unseated, h]
  · have htext : g.ruby.annotates = false := by simpa [annotates] using h
    cases g.split <;>
      simp [putAt, unplaced, unstacked, unseated, unclocked, unnumbered, annotates, htext]

theorem placeDown_unstacked (spacing : LineSpacing α) (y : α) (gs : List (Glyph α τ)) :
    placeDown spacing y (gs.map unstacked) =
      { placeDown spacing y gs with glyphs := (placeDown spacing y gs).glyphs.map unseated } := by
  have hstep : ∀ (pos : α × ℕ) (row : List (Glyph α τ)),
      stackStep spacing pos (row.map unstacked) =
        ((stackStep spacing pos row).1,
          Prod.map id (List.map unseated) (stackStep spacing pos row).2) := by
    intro pos row
    have hascent : lineAscent (row.map unstacked) = lineAscent row := by
      rw [lineAscent, List.foldl_map]
      rfl
    have hheight : lineHeight (row.map unstacked) = lineHeight row := by
      rw [lineHeight, List.foldl_map]
      rfl
    have htop : lineTop spacing pos.1 (row.map unstacked) = lineTop spacing pos.1 row := by
      rw [lineTop, List.any_map]
      rfl
    simp only [stackStep, hascent, hheight, htop, List.length_map, List.map_map, Prod.map, id]
    rfl
  have hrun := sweep_map (fun pos row (_ : row ∈ lines gs) => hstep pos row) (y, 0)
  simp only [placeDown, lines_map (w := unstacked) fun _ => rfl, hrun, List.map_map,
    List.flatMap_map, List.map_flatMap]
  rfl

theorem centreRun_unseated (offsets : RubyOffsets α) (base : BaseExtent α)
    (run : List (Glyph α τ)) :
    centreRun offsets base (run.map unseated) = (centreRun offsets base run).map unclocked := by
  unfold centreRun
  rw [runWidth_map (w := unseated) (fun _ => rfl) fun _ => rfl]
  refine congrArg Prod.snd (sweep_map (v := unclocked) (fun x g _ => ?_) _)
  rfl

theorem annotateStep_unseated (offsets : RubyOffsets α) (base : BaseExtent α)
    {run : List (Glyph α τ)} (hrun : ∀ g ∈ run, ∀ h ∈ run, g.ruby = h.ruby) :
    annotateStep offsets base (run.map unseated) =
      ((annotateStep offsets base run).1, (annotateStep offsets base run).2.map unclocked) := by
  cases run with
  | nil => rfl
  | cons g rest =>
    rw [List.map_cons]
    unfold annotateStep
    dsimp only
    have hann : g.unseated.annotates = g.annotates := rfl
    rw [hann]
    split_ifs with h
    · rw [← List.map_cons, centreRun_unseated]
    · have hsame : ∀ k ∈ g :: rest, k.unseated = k.unclocked := by
        intro k hk
        have hk' : ¬ k.annotates = true := by
          rw [annotates, ← hrun g (by simp) k hk]
          exact h
        rw [unseated, if_neg hk']
        rfl
      have hrest : rest.map unseated = rest.map unclocked :=
        List.map_congr_left fun k hk => hsame k (by simp [hk])
      rw [hsame g (by simp), hrest, List.foldl_map]
      rfl

theorem placeAnnotations_unseated (offsets : RubyOffsets α) (gs : List (Glyph α τ)) :
    placeAnnotations offsets (gs.map unseated) = (placeAnnotations offsets gs).map unclocked := by
  have hruns : (gs.map unseated).splitBy sameRun = (gs.splitBy sameRun).map (List.map unseated) :=
    (map_splitBy unseated sameRun gs).symm
  have hstep := sweep_map (v := List.map unclocked)
    (fun base run (hrun : run ∈ gs.splitBy sameRun) =>
      annotateStep_unseated offsets base (ruby_of_mem_run hrun)) .origin
  rw [placeAnnotations, hruns, hstep, placeAnnotations, List.map_flatten]

omit [Scalar α] in
theorem assignTimes_unclocked (start rate : τ) (gs : List (Glyph α τ)) :
    assignTimes start rate (gs.map unclocked) =
      ((assignTimes start rate gs).1, (assignTimes start rate gs).2.map unnumbered) := by
  refine sweep_map (fun t g _ => ?_) start
  have hann : g.unclocked.annotates = g.annotates := rfl
  unfold timeStep
  rw [hann]
  split_ifs
  · rfl
  · rfl

theorem layParagraph_bare {s : Style α τ} (hs : s.mode = .unbroken ∨ s.language ≠ .western)
    (table : ClassTable) (start : Style.Start α τ) (gs : List (Glyph α τ)) :
    s.layParagraph table start (gs.map bare) =
      ((s.layParagraph table start gs).1, (s.layParagraph table start gs).2.1,
        (s.layParagraph table start gs).2.2.map unnumbered) := by
  unfold Style.layParagraph
  simp only [breakLines_bare hs, orderLines_unplaced, placeAcross_unplaced, placeDown_unstacked,
    placeAnnotations_unseated, assignTimes_unclocked, List.length_map]

end Place

section Buffer

section Align

variable [Scalar α]

/-- A change of glyphs that aligning does not notice: the ink and the spaces of lines stay, and
moving a glyph along its line does the same before the change and after it. -/
structure KeepsInk (w : Glyph α τ → Glyph α τ) : Prop where
  split : ∀ g, (w g).split = g.split
  annotates : ∀ g, (w g).annotates = g.annotates
  code : ∀ g, (w g).code = g.code
  x : ∀ g, (w g).x = g.x
  width : ∀ g, (w g).width = g.width
  shiftX : ∀ dx g, shiftX dx (w g) = w (shiftX dx g)

theorem keepsInk_unnumbered : KeepsInk (unnumbered : Glyph α τ → Glyph α τ) :=
  ⟨fun _ => rfl, fun _ => rfl, fun _ => rfl, fun _ => rfl, fun _ => rfl, fun _ _ => rfl⟩

variable {w : Glyph α τ → Glyph α τ}

theorem alignLine_map (hw : KeepsInk w) (a : Alignment α) (target : α) (ends : Bool)
    (row : List (Glyph α τ)) :
    alignLine a target ends (row.map w) = (alignLine a target ends row).map w := by
  have hstretches : ∀ g, (w g).stretches = g.stretches := fun g => by
    rw [stretches, hw.annotates, hw.code, stretches]
  have hink : lineInk (row.map w) = lineInk row := by
    rw [lineInk, body_map hw.split, List.foldl_map]
    simp only [hw.annotates, hw.x, hw.width, lineInk]
  have hcount : stretchCount (row.map w) = stretchCount row := by
    rw [stretchCount, body_map hw.split, List.countP_map, stretchCount]
    exact List.countP_congr fun g _ => by rw [Function.comp_apply, hstretches]
  have hshift : ∀ (dx : α) (l : List (Glyph α τ)),
      (l.map w).map (shiftX dx) = (l.map (shiftX dx)).map w := by
    intro dx l
    rw [List.map_map, List.map_map]
    exact List.map_congr_left fun g _ => hw.shiftX dx g
  have hstretch : ∀ share : α, stretchLine share (row.map w) = (stretchLine share row).map w := by
    intro share
    have hstep : sweep (stretchStep share) (0, 0) ((body row).map w) =
        ((sweep (stretchStep share) (0, 0) (body row)).1,
          (sweep (stretchStep share) (0, 0) (body row)).2.map w) :=
      sweep_map (fun s g _ => by rw [stretchStep, hstretches, hw.shiftX, stretchStep]) (0, 0)
    rw [stretchLine, body_map hw.split, marker_map hw.split, hstep, hshift, stretchLine,
      List.map_append]
  unfold alignLine
  simp only [hink, hcount, hstretch, hshift]
  split_ifs
  · rfl
  · rfl
  · rfl

theorem alignLines_map (hw : KeepsInk w) (a : Alignment α) (target : α) (rows : List (Line α τ))
    (gs : List (Glyph α τ)) :
    alignLines a target rows (gs.map w) = (alignLines a target rows gs).map w := by
  unfold alignLines
  split_ifs
  · rfl
  · induction rows generalizing gs with
    | nil => rfl
    | cons l rows ih =>
      have hupdate : l.span.update (alignLine a target l.endsParagraph) (gs.map w) =
          (l.span.update (alignLine a target l.endsParagraph) gs).map w := by
        simp only [Span.update, Span.slice_map, alignLine_map hw, List.map_append,
          List.map_take, List.map_drop]
      rw [List.foldl_cons, hupdate, ih]
      rfl

end Align

variable [Scalar τ]

theorem assignIndices_unnumbered (start : ℤ) {gs : List (Glyph α τ)}
    (h : ∀ g ∈ gs, g.annotates = false → g.isTimed = true) :
    assignIndices start (gs.map unnumbered) = assignIndices start gs := by
  have hstep : assignIndices start (gs.map unnumbered) =
      ((assignIndices start gs).1, (assignIndices start gs).2.map id) := by
    refine sweep_map (fun n g hg => ?_) start
    have htimed : g.unnumbered.isTimed = g.isTimed := rfl
    unfold indexStep
    rw [htimed]
    split_ifs with ht
    · rfl
    · have hann : g.annotates = true := by
        by_contra hnot
        exact ht (h g hg (by simpa using hnot))
      rw [unnumbered, if_pos hann]
      rfl
  rw [hstep, List.map_id]

end Buffer

section Unhung

/-- The pair rules let no glyph hang. -/
theorem unhung_pairMarks (classOf : Glyph α τ → BreakClass) (gs : List (Glyph α τ)) :
    ∀ m ∈ pairMarks classOf gs, m.2 ≠ .hang := by
  have hmark : ∀ (s : PairScan) (i : ℕ) (cls : BreakClass), ∀ m ∈ s.mark i cls, m.2 ≠ .hang := by
    intro s i cls m hm
    unfold PairScan.mark at hm
    split at hm
    · simp at hm
    · split at hm
      · simp at hm
      · simp_all
      · simp_all
      · simp at hm
  have hpass : ∀ (s : PairScan) (i : ℕ) (cls : BreakClass) (base : InBase),
      (∀ m ∈ s.marks, m.2 ≠ .hang) → ∀ m ∈ (s.pass i cls base).marks, m.2 ≠ .hang := by
    intro s i cls base hs m hm
    exact (List.mem_append.mp hm).elim (hmark s i cls m) (hs m)
  apply foldl_zipIdx_run (P := fun _ (s : PairScan) => ∀ m ∈ s.marks, m.2 ≠ .hang)
  · simp [PairScan.start]
  · intro n g s _ hs
    unfold PairScan.step
    dsimp only
    split_ifs
    · exact hs
    · exact hs
    · exact hs
    · exact hs
    · exact hs
    · exact hpass s n .AL _ hs
    · exact hpass s n _ _ hs

theorem unhung_mark (table : ClassTable) (c : Classifier) (gs : List (Glyph α τ)) :
    List.Forall₂ (fun g h => h.split = .hang → g.split = .hang) gs (c.mark table gs) := by
  cases c with
  | western =>
    apply forall₂_sweep
    intro inBase g _
    unfold westernStep
    dsimp only
    split_ifs <;> simp
  | anywhere =>
    apply forall₂_sweep
    intro inBase g _
    unfold anywhereStep
    dsimp only
    split_ifs <;> simp
  | pairs profile noIdeographs =>
    apply forall₂_map_zipIdx
    intro g n
    dsimp only [withMark]
    split
    · exact id
    · split
      · rename_i split hlookup
        obtain ⟨l, l', hl, _⟩ := List.lookup_eq_some_iff.mp hlookup
        have hmem : (n, split) ∈ pairMarks (glyphClass table profile noIdeographs) gs := by
          simp [hl]
        exact fun h => absurd h (unhung_pairMarks _ gs _ hmem)
      · split_ifs with hhang
        · exact id
        · simp

theorem unhung_breakGreedy [Scalar α] (first rest : α) (gs : List (Glyph α τ)) :
    List.Forall₂ (fun g h => h.split = .hang → g.split = .hang) gs (breakGreedy first rest gs) := by
  apply forall₂_map_zipIdx
  intro g n
  dsimp only
  split_ifs
  · simp
  · exact id

end Unhung

section Kept

variable [Scalar α] [Scalar τ]

theorem bare_rebreaks {g h : Glyph α τ} (hgh : Rebreaks g h) (hg : g.split = .none)
    (hh : h.split ≠ .hang) : h.bare = g.bare := by
  obtain ⟨split, rfl, hann⟩ := hgh
  have hsplit : split ≠ .hang := hh
  by_cases h : g.annotates = true
  · rw [hann h]
  · have hh : ¬ ({ g with split } : Glyph α τ).annotates = true := h
    simp [bare, h, hh, hg, hsplit, unplaced, unstacked, unseated, unclocked, unnumbered]

/-- Choosing breaks keeps what is left of a glyph without breaks. -/
theorem bare_breakLines (s : Style α τ) (table : ClassTable) (gs : List (Glyph α τ)) :
    List.Forall₂ (fun g h => g.split = .none → h.bare = g.bare) gs (s.breakLines table gs) := by
  unfold Style.breakLines
  cases s.mode with
  | greedy =>
    have hbreaks := forall₂_trans (R := Rebreaks) (fun _ _ _ => Rebreaks.trans)
      (rebreaks_mark table s.language.classifier gs)
      (rebreaks_breakGreedy (s.firstWidth - s.firstIndent) (s.restWidth - s.restIndent) _)
    have hhang := forall₂_comp (T := fun g h => h.split = .hang → g.split = .hang)
      (unhung_mark table s.language.classifier gs)
      (unhung_breakGreedy (s.firstWidth - s.firstIndent) (s.restWidth - s.restIndent) _)
      fun _ _ _ hg hh h => hg (hh h)
    rw [List.forall₂_iff_get] at hbreaks hhang ⊢
    refine ⟨hbreaks.1, fun i hi hi' hg => bare_rebreaks (hbreaks.2 i hi hi') hg fun h => ?_⟩
    rw [hhang.2 i hi hi' h] at hg
    cases hg
  | unbroken =>
    rw [clearSplits, List.forall₂_map_right_iff]
    refine forall₂_refl (fun g hg => ?_) gs
    rw [← hg]

end Kept

namespace Glyph

variable [Scalar α] [Scalar τ] {g h k : Glyph α τ}

/-- An inline object that hangs from the ascent of its line. -/
def Hangs (g : Glyph α τ) : Prop := g.isObject = true ∧ (g.ascent == 0) = true

/-- Unless it hangs, a glyph keeps what no pass writes. -/
def Lasts (g h : Glyph α τ) : Prop := ¬ g.Hangs → h.bare = g.bare

theorem Lasts.trans (hg : Lasts g h) (hh : Lasts h k) : Lasts g k := by
  intro hhangs
  have hbare := hg hhangs
  have hcode : h.code = g.code := show h.bare.code = g.bare.code by rw [hbare]
  have hascent : h.ascent = g.ascent := show h.bare.ascent = g.bare.ascent by rw [hbare]
  rw [hh (by rwa [Hangs, isObject, hcode, hascent]), hbare]

theorem Moved.lasts (hgh : Moved g h) : Lasts g h := by
  obtain ⟨x, rfl⟩ := hgh
  exact fun _ => rfl

end Glyph

section Last

variable [Scalar α] [Scalar τ]

theorem lasts_placed (s : Style α τ) (y : α) (gs : List (Glyph α τ)) :
    List.Forall₂ Lasts gs (placeAnnotations s.rubyOffsets
      (placeDown s.spacing y (placeAcross s.left s.firstIndent s.restIndent gs)).glyphs) := by
  have hacross := (moved_placeAcross s.left s.firstIndent s.restIndent gs).imp fun _ _ =>
    Moved.lasts
  have hdown := (written_placeDown s.spacing y
    (placeAcross s.left s.firstIndent s.restIndent gs)).imp (S := Lasts) ?_
  · have hnotes := (written_placeAnnotations s.rubyOffsets
      (placeDown s.spacing y (placeAcross s.left s.firstIndent s.restIndent gs)).glyphs).imp
      (S := Lasts) ?_
    · exact forall₂_trans (R := Lasts) (fun _ _ _ => Lasts.trans) hacross
        (forall₂_trans (R := Lasts) (fun _ _ _ => Lasts.trans) hdown hnotes)
    · rintro g _ ⟨x, y, rfl, _⟩
      exact fun _ => rfl
  · rintro g _ ⟨y, ascent, rfl, hascent⟩ hhangs
    rw [hascent.resolve_right hhangs]
    rfl

/-- A paragraph in order keeps what no pass writes, and its annotations have no time. -/
theorem lasts_layParagraph {s : Style α τ} (hs : s.rtl = false) (table : ClassTable)
    (start : Style.Start α τ) (gs : List (Glyph α τ)) :
    List.Forall₂ (fun g h => g.split = .none →
      Lasts g h ∧ (h.annotates = true → h.time = untimed))
      gs (s.layParagraph table start gs).2.2 := by
  have horder : s.orderLines (s.breakLines table gs) = s.breakLines table gs := by
    rw [Style.orderLines, hs, if_neg (by simp)]
  unfold Style.layParagraph
  rw [horder]
  have hplaced := forall₂_comp (T := fun g h => g.split = .none → Lasts g h)
    (bare_breakLines s table gs) (lasts_placed s start.y (s.breakLines table gs))
    fun _ _ _ hg hh hsplit => Lasts.trans (fun _ => hg hsplit) hh
  refine forall₂_comp hplaced (written_assignTimes ..) ?_
  rintro g h _ hgh ⟨time, duration, rfl, htime⟩ hsplit
  exact ⟨(hgh hsplit).trans fun _ => rfl, htime⟩

theorem lasts_layout [Clock τ] {s : Style α τ} (hs : s.rtl = false) (table : ClassTable)
    (startTime : τ) (gs : List (Glyph α τ)) :
    List.Forall₂ (fun g h => g.split = .none → Lasts g h)
      gs (s.layout table startTime [gs]).glyphs := by
  have hspans := start_le_stop_layParagraph s table ⟨s.top, startTime, 0⟩ gs
  unfold Style.layout
  simp only [sweep_cons, sweep_nil, List.flatMap_cons, List.flatMap_nil, List.append_nil]
  have haligned := forall₂_comp (T := fun g h => g.split = .none →
      Lasts g h ∧ (h.annotates = true → h.time = untimed))
    (lasts_layParagraph hs table ⟨s.top, startTime, 0⟩ gs) (moved_alignLines s.alignment
      (s.left + Scalar.larger s.alignWidth
        (rightEdge (s.layParagraph table ⟨s.top, startTime, 0⟩ gs).2.2 - s.left)) _ _ hspans) ?_
  · refine forall₂_comp haligned (written_assignIndices 0 _) ?_
    rintro g h _ hgh ⟨index, rfl, hindex⟩ hsplit
    obtain ⟨hlasts, htime⟩ := hgh hsplit
    refine hlasts.trans fun _ => ?_
    by_cases hann : h.annotates = true
    · have huntimed : h.isTimed = false := by
        rw [isTimed, htime hann]
        exact decide_eq_false Clock.untimed_neg
      rw [hindex huntimed]
    · have hann' : ¬ ({ h with index } : Glyph α τ).annotates = true := hann
      simp only [bare, unplaced, unstacked, unseated, unclocked, unnumbered, if_neg hann,
        if_neg hann']
      rfl
  · rintro g h _ hgh ⟨x, rfl⟩ hsplit
    exact ⟨(hgh hsplit).1.trans (Moved.lasts ⟨x, rfl⟩), (hgh hsplit).2⟩

end Last

section Anew

variable [Scalar τ] [Clock τ]

theorem isTimed_assignTimes {start rate : τ} (hstart : 0 ≤ start) (hrate : 0 ≤ rate)
    (gs : List (Glyph α τ)) :
    ∀ g ∈ (assignTimes start rate gs).2, g.annotates = false → g.isTimed = true := by
  unfold assignTimes
  induction gs generalizing start with
  | nil => simp
  | cons g gs ih =>
    rw [sweep_cons]
    unfold timeStep
    have hnext := Clock.nonneg_add start _ hstart (Clock.nonneg_glyphTime rate hrate)
    split_ifs with hann
    · rintro h (_ | ⟨_, hh⟩)
      · exact fun hnot => absurd hann (Bool.eq_false_iff.mp hnot)
      · exact ih hstart h hh
    · rintro h (_ | ⟨_, hh⟩)
      · exact fun _ => decide_eq_true hnext
      · exact ih hnext h hh

variable [Scalar α]

/-- A layout sees nothing of what it writes. -/
theorem layout_bare {s : Style α τ} (hs : s.mode = .unbroken ∨ s.language ≠ .western)
    (hrate : 0 ≤ s.rate) (table : ClassTable) {startTime : τ} (hstart : 0 ≤ startTime)
    (gs : List (Glyph α τ)) :
    s.layout table startTime [gs.map bare] = s.layout table startTime [gs] := by
  have hspans := start_le_stop_layParagraph s table ⟨s.top, startTime, 0⟩ gs
  have htimed : ∀ target, ∀ g ∈ alignLines s.alignment target
      (s.layParagraph table ⟨s.top, startTime, 0⟩ gs).2.1
      (s.layParagraph table ⟨s.top, startTime, 0⟩ gs).2.2, g.annotates = false →
        g.isTimed = true := by
    intro target
    refine forall_mem_of_forall₂ (moved_alignLines _ _ _ _ hspans) ?_
      (isTimed_assignTimes hstart hrate _)
    rintro g _ ⟨x, rfl⟩
    exact id
  have hedge : ∀ l : List (Glyph α τ), rightEdge (l.map unnumbered) = rightEdge l := by
    intro l
    rw [rightEdge, List.foldl_map]
    rfl
  unfold Style.layout
  simp only [sweep_cons, sweep_nil, List.flatMap_cons, List.flatMap_nil, List.append_nil,
    layParagraph_bare hs, hedge, alignLines_map keepsInk_unnumbered,
    assignIndices_unnumbered _ (htimed _)]

/-- A text that was laid out is laid out again as if it never had been. -/
theorem Style.layout_reflow (s s' : Style α τ) (table : ClassTable) (t : τ) {t' : τ}
    {gs : List (Glyph α τ)} (hsplits : ∀ g ∈ gs, g.split = .none)
    (hobjects : ∀ g ∈ gs, g.isObject = true → ¬ (g.ascent == 0) = true) (hrtl : s.rtl = false)
    (hbreaks : s'.mode = .unbroken ∨ s'.language ≠ .western) (hrate : 0 ≤ s'.rate)
    (hstart : 0 ≤ t') :
    s'.layout table t' [(s.layout table t [gs]).glyphs] = s'.layout table t' [gs] := by
  have hbare : (s.layout table t [gs]).glyphs.map bare = gs.map bare := by
    apply map_eq_of_forall₂ (lasts_layout hrtl table t gs)
    intro g hg h hgh
    exact hgh (hsplits g hg) fun hhangs => hobjects g hg hhangs.1 hhangs.2
  rw [← layout_bare hbreaks hrate table hstart, hbare, layout_bare hbreaks hrate table hstart]

end Anew

/-- A style with lines of width two, broken at spaces. -/
def Style.tight : Style ℚ Float :=
  { (Style.default : Style ℚ Float).withWidth 2 with language := .western, rate := 4 }

/-- A style set from the right, with lines of width three. -/
def Style.mirrored : Style ℚ Float :=
  { (Style.default : Style ℚ Float).withWidth 3 with
    language := .anywhere, alignment := ⟨1, false⟩, rtl := true, rate := 2 }

/-- Two words, the second annotated. -/
def annotatedWords : List (Glyph ℚ Float) :=
  [.ofCode 97 1, .ofCode 98 1, .ofCode 32 1, .ofCode 99 1,
    { (.ofCode 100 1 : Glyph ℚ Float) with ruby := .above }]

theorem Style.layout_reflow_annotatedWords :
    (tight.layout .default 1 [annotatedWords]).glyphs.map (fun g => (g.x, g.split)) =
        [(0, .none), (1, .none), (2, .replace), (0, .none), (0, .none)] ∧
      (mirrored.layout .default 0 [annotatedWords]).glyphs.map (fun g => (g.code, g.x)) =
        [(98, 0), (97, 1), (32, 2), (99, 1), (100, 1)] ∧
      mirrored.layout .default 0 [(tight.layout .default 1 [annotatedWords]).glyphs] =
        mirrored.layout .default 0 [annotatedWords] := by
  have hsplits : ∀ g ∈ annotatedWords, g.split = .none := by simp [annotatedWords, ofCode]
  have hobjects : ∀ g ∈ annotatedWords, g.isObject = true → ¬ (g.ascent == 0) = true := by
    simp [annotatedWords, ofCode, isObject]
  refine ⟨?_, ?_, layout_reflow tight mirrored .default 1 hsplits hobjects rfl (.inr ?_) ?_ ?_⟩
  · decide +kernel
  · decide +kernel
  · decide
  · decide
  · decide

end Typeset
