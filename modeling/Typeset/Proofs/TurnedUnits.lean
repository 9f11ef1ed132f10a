import Typeset.Proofs.TurnedBases

/-!
# Units in turned lines

A line without its replaced glyph comes apart into units in one way only. Turning the line around
puts the units in the opposite order and turns each of them around, its text still in front of its
annotations. The replaced glyph, the place of the line and the break before it stay.
-/

namespace Typeset

open Glyph

variable {α τ : Type}

/-- Text, and the annotations behind it. -/
structure TextUnit (α τ : Type) where
  text : List (Glyph α τ)
  notes : List (Glyph α τ)

namespace TextUnit

def glyphs (u : TextUnit α τ) : List (Glyph α τ) := u.text ++ u.notes

/-- The text and the annotations each the other way around, the text still in front. -/
def turned (u : TextUnit α τ) : List (Glyph α τ) := u.text.reverse ++ u.notes.reverse

/-- One plain glyph or base glyphs, with annotations behind them. -/
structure IsUnit (u : TextUnit α τ) : Prop where
  ne_nil : u.glyphs ≠ []
  text : (∃ g, u.text = [g] ∧ g.ruby = .plain) ∨ ∀ g ∈ u.text, g.ruby = .base
  notes : ∀ g ∈ u.notes, g.annotates = true

/-- What may follow a unit: one that has text, and no base behind a bare base, whose run it would
belong to. -/
structure Follows (u v : TextUnit α τ) : Prop where
  text_ne_nil : v.text ≠ []
  apart : u.notes = [] → (∀ g ∈ u.text, g.ruby = .base) → ¬ ∀ g ∈ v.text, g.ruby = .base

/-- The units that glyphs come apart into; only the first may be without text. -/
structure MakeUp (us : List (TextUnit α τ)) (gs : List (Glyph α τ)) : Prop where
  glyphs : us.flatMap glyphs = gs
  isUnit : ∀ u ∈ us, u.IsUnit
  follows : us.IsChain Follows

variable {u v : TextUnit α τ} {us : List (TextUnit α τ)} {gs : List (Glyph α τ)}

theorem IsUnit.unannotated (h : u.IsUnit) : ∀ g ∈ u.text, g.annotates = false := by
  rcases h.text with ⟨g, htext, hplain⟩ | hbase
  · rw [htext, List.forall_mem_singleton, annotates, hplain]
    rfl
  · exact fun g hg => annotates_of_base (hbase g hg)

/-- The text of a piece of a line, up to its first annotation, and the rest of it. -/
def ofPiece (piece : List (Glyph α τ)) : TextUnit α τ :=
  ⟨piece.takeWhile fun g => !g.annotates, piece.dropWhile fun g => !g.annotates⟩

theorem glyphs_ofPiece (piece : List (Glyph α τ)) : (ofPiece piece).glyphs = piece :=
  List.takeWhile_append_dropWhile

theorem turned_ofPiece (piece : List (Glyph α τ)) : (ofPiece piece).turned = turnUnit piece := rfl

theorem ofPiece_glyphs (h : u.IsUnit) : ofPiece u.glyphs = u := by
  have htext : ∀ g ∈ u.text, (!g.annotates) = true := by simpa using h.unannotated
  have hnotes : (u.notes.takeWhile fun g => !g.annotates) = [] ∧
      (u.notes.dropWhile fun g => !g.annotates) = u.notes := by
    cases hcons : u.notes with
    | nil => simp
    | cons g notes =>
      have hg := h.notes g (by simp [hcons])
      simp [hg]
  rw [ofPiece, glyphs, List.takeWhile_append_of_pos htext, List.dropWhile_append_of_pos htext,
    hnotes.1, hnotes.2, List.append_nil]

theorem IsUnit.isChain (h : u.IsUnit) : u.glyphs.IsChain fun a b => sameUnit a b = true := by
  have hnotes : u.notes.Pairwise fun a b => sameUnit a b = true :=
    List.pairwise_of_forall_mem_list fun a _ b hb => by simp [sameUnit, h.notes b hb]
  have hbehind : ∀ a ∈ u.text.getLast?, ∀ b ∈ u.notes.head?, sameUnit a b = true :=
    fun a _ b hb => by simp [sameUnit, h.notes b (List.mem_of_mem_head? hb)]
  refine List.isChain_append.mpr ⟨?_, hnotes.isChain, hbehind⟩
  rcases h.text with ⟨g, htext, _⟩ | hbase
  · rw [htext]
    exact .singleton g
  · apply List.Pairwise.isChain
    exact List.pairwise_of_forall_mem_list fun a ha b hb => by
      simp [sameUnit, hbase a ha, hbase b hb]

/-- A unit with a base glyph has no other text. -/
theorem IsUnit.base_of_mem (h : u.IsUnit) {g : Glyph α τ} (hg : g ∈ u.text)
    (hbase : g.ruby = .base) : ∀ k ∈ u.text, k.ruby = .base := by
  rcases h.text with ⟨k, htext, hplain⟩ | hall
  · rw [htext, List.mem_singleton] at hg
    rw [hg, hplain] at hbase
    cases hbase
  · exact hall

theorem sameUnit_eq_false_iff {a b : Glyph α τ} : sameUnit a b = false ↔
    b.annotates = false ∧ ¬ (a.ruby = .base ∧ b.ruby = .base) := by
  simp [sameUnit]

/-- What follows a unit is no part of it. -/
theorem follows_iff (hu : u.IsUnit) (hv : v.IsUnit) : Follows u v ↔
    ∃ (ha : u.glyphs ≠ []) (hb : v.glyphs ≠ []),
      sameUnit (u.glyphs.getLast ha) (v.glyphs.head hb) = false := by
  have hlast : ∀ hnotes : u.notes ≠ [], (u.glyphs.getLast hu.ne_nil) = u.notes.getLast hnotes :=
    fun hnotes => List.getLast_append_of_ne_nil _ hnotes
  have hhead : ∀ htext : v.text ≠ [], (v.glyphs.head hv.ne_nil) = v.text.head htext :=
    fun htext => List.head_append_of_ne_nil htext
  constructor
  · intro h
    refine ⟨hu.ne_nil, hv.ne_nil, ?_⟩
    have hmem := List.head_mem h.text_ne_nil
    rw [hhead h.text_ne_nil, sameUnit_eq_false_iff]
    refine ⟨hv.unannotated _ hmem, ?_⟩
    rintro ⟨hbase, hbase'⟩
    by_cases hnotes : u.notes = []
    · have hglyphs : u.glyphs = u.text := by rw [glyphs, hnotes, List.append_nil]
      have hmem' : u.glyphs.getLast hu.ne_nil ∈ u.text := hglyphs ▸ List.getLast_mem hu.ne_nil
      exact h.apart hnotes (hu.base_of_mem hmem' hbase) (hv.base_of_mem hmem hbase')
    · have hann := hu.notes _ (List.getLast_mem hnotes)
      rw [hlast hnotes] at hbase
      rw [annotates_of_base hbase] at hann
      cases hann
  · rintro ⟨_, _, hparts⟩
    rw [sameUnit_eq_false_iff] at hparts
    obtain ⟨hann, hbases⟩ := hparts
    have htext : v.text ≠ [] := by
      intro hnil
      have hmem : v.glyphs.head hv.ne_nil ∈ v.notes := by
        have hglyphs : v.glyphs = v.notes := by rw [glyphs, hnil, List.nil_append]
        exact hglyphs ▸ List.head_mem hv.ne_nil
      rw [hv.notes _ hmem] at hann
      cases hann
    refine ⟨htext, fun hnotes hu' hv' => hbases ⟨hu' _ ?_, hv' _ ?_⟩⟩
    · have hglyphs : u.glyphs = u.text := by rw [glyphs, hnotes, List.append_nil]
      exact hglyphs ▸ List.getLast_mem hu.ne_nil
    · rw [hhead htext]
      exact List.head_mem htext

theorem isUnit_ofPiece {piece : List (Glyph α τ)} (hne : piece ≠ [])
    (h : piece.IsChain fun a b => sameUnit a b = true) : (ofPiece piece).IsUnit := by
  obtain ⟨text, notes, rfl, _, htext, hnotes, hsingle⟩ := exists_text_of_unit h
  have hunit : (⟨text, notes⟩ : TextUnit α τ).IsUnit := by
    refine ⟨hne, ?_, hnotes⟩
    rcases hsingle with hshort | hbase
    · rcases text with _ | ⟨g, _ | ⟨_, _⟩⟩
      · exact .inr (by simp)
      · have hann : g.ruby.annotates = false := htext g (by simp)
        cases hruby : g.ruby with
        | plain => exact .inl ⟨g, rfl, hruby⟩
        | base => exact .inr (by simpa using hruby)
        | above => simp [hruby, RubyRole.annotates] at hann
        | below => simp [hruby, RubyRole.annotates] at hann
      · simp at hshort
    · exact .inr hbase
  exact (ofPiece_glyphs hunit).symm ▸ hunit

/-- Glyphs come apart into units where two neighbours do not belong to one, and nowhere else. -/
theorem makeUp_iff : MakeUp us gs ↔ us = (gs.splitBy sameUnit).map ofPiece := by
  constructor
  · intro h
    have hpieces : gs.splitBy sameUnit = us.map glyphs := by
      refine List.splitBy_eq_iff.mpr ⟨h.glyphs.symm.trans List.flatMap_def, ?_, ?_, ?_⟩
      · intro hnil
        obtain ⟨u, hu, hglyphs⟩ := List.mem_map.mp hnil
        exact (h.isUnit u hu).ne_nil hglyphs
      · intro piece hpiece
        obtain ⟨u, hu, rfl⟩ := List.mem_map.mp hpiece
        exact (h.isUnit u hu).isChain
      · refine (List.isChain_map _).mpr (h.follows.imp_of_mem_imp fun u v hu hv => ?_)
        exact (follows_iff (h.isUnit u hu) (h.isUnit v hv)).mp
    rw [hpieces, List.map_map]
    exact (List.map_id us).symm.trans
      (List.map_congr_left fun u hu => (ofPiece_glyphs (h.isUnit u hu)).symm)
  · rintro rfl
    have hunit : ∀ piece ∈ gs.splitBy sameUnit, (ofPiece piece).IsUnit := fun piece hpiece =>
      isUnit_ofPiece (List.ne_nil_of_mem_splitBy hpiece) (List.isChain_of_mem_splitBy hpiece)
    refine ⟨?_, List.forall_mem_map.mpr hunit, ?_⟩
    · rw [List.flatMap_map]
      simp only [glyphs_ofPiece, List.flatMap_id', List.flatten_splitBy]
    · refine (List.isChain_map _).mpr
        ((List.isChain_getLast_head_splitBy sameUnit gs).imp_of_mem_imp fun a b ha hb hab => ?_)
      rw [follows_iff (hunit a ha) (hunit b hb)]
      simpa only [glyphs_ofPiece] using hab

theorem existsUnique_makeUp (gs : List (Glyph α τ)) : ∃! us, MakeUp us gs :=
  ⟨_, makeUp_iff.mpr rfl, fun _ h => makeUp_iff.mp h⟩

theorem MakeUp.turnUnits_eq (h : MakeUp us gs) : turnUnits gs = us.reverse.flatMap turned := by
  rw [makeUp_iff.mp h, ← List.map_reverse, List.flatMap_map]
  simp only [turned_ofPiece, turnUnits]

/-- Where the first glyph is text, every unit has text. -/
theorem MakeUp.text_ne_nil (h : MakeUp us gs) (hlead : ∀ g ∈ gs.head?, g.annotates = false) :
    ∀ u ∈ us, u.text ≠ [] := by
  have htail : ∀ u ∈ us.tail, u.text ≠ [] :=
    ((isChain_and_iff (fun _ => True) (fun v : TextUnit α τ => v.text ≠ []) us).mp
      (h.follows.imp fun _ _ hfollows => ⟨trivial, hfollows.text_ne_nil⟩)).2
  cases us with
  | nil => simp
  | cons u us =>
    refine List.forall_mem_cons.mpr ⟨fun hnil => ?_, htail⟩
    have hunit := h.isUnit u List.mem_cons_self
    have hglyphs : u.glyphs = u.notes := by rw [TextUnit.glyphs, hnil, List.nil_append]
    obtain ⟨g, notes, hnotes⟩ := List.exists_cons_of_ne_nil (hglyphs ▸ hunit.ne_nil)
    have hg := hunit.notes g (by simp [hnotes])
    rw [hlead g (by simp [← h.glyphs, hglyphs, hnotes])] at hg
    cases hg

/-- Turned around, glyphs that lead with text still do. -/
theorem MakeUp.annotates_head (h : MakeUp us gs) (hlead : ∀ g ∈ gs.head?, g.annotates = false) :
    ∀ g ∈ (us.reverse.flatMap turned).head?, g.annotates = false := by
  cases hus : us.reverse with
  | nil => simp
  | cons u rest =>
    have hmem : u ∈ us := List.mem_reverse.mp (hus ▸ List.mem_cons_self)
    have htext : u.text.reverse ≠ [] := by simpa using h.text_ne_nil hlead u hmem
    intro g hg
    rw [List.flatMap_cons, turned, List.append_assoc, List.head?_append_of_ne_nil _ htext] at hg
    exact (h.isUnit u hmem).unannotated g (List.mem_reverse.mp (List.mem_of_mem_head? hg))

/-- Text without annotations is turned around as a whole. -/
theorem MakeUp.reverse_eq (h : MakeUp us gs) (hann : ∀ g ∈ gs, g.annotates = false) :
    us.reverse.flatMap turned = gs.reverse := by
  have hbare : ∀ u ∈ us, u.turned = u.glyphs.reverse := by
    intro u hu
    have hnotes : u.notes = [] := by
      refine List.eq_nil_iff_forall_not_mem.mpr fun g hg => ?_
      have hmem : g ∈ gs := by
        rw [← h.glyphs]
        exact List.mem_flatMap.mpr ⟨u, hu, List.mem_append_right _ hg⟩
      have htext := hann g hmem
      rw [(h.isUnit u hu).notes g hg] at htext
      cases htext
    rw [turned, TextUnit.glyphs, hnotes, List.reverse_nil, List.append_nil, List.append_nil]
  rw [← h.glyphs, List.reverse_flatMap]
  exact List.flatMap_congr fun u hu => hbare u (List.mem_reverse.mp hu)

end TextUnit

open TextUnit

variable {gs row turned : List (Glyph α τ)} {r : Span}

theorem lineSpans_turnLines (gs : List (Glyph α τ)) : lineSpans (turnLines gs) = lineSpans gs := by
  have hlength : List.length ∘ turnLine = (List.length : List (Glyph α τ) → ℕ) :=
    funext length_turnLine
  rw [lineSpans, lines_turnLines, List.map_map, hlength, lineSpans]

theorem slice_turnLines (h : r ∈ lineSpans gs) :
    r.slice (turnLines gs) = turnLine (r.slice gs) := by
  obtain ⟨before, row, behind, hlines, rfl⟩ := exists_line_of_mem_lineSpans h
  have hturned : lines (turnLines gs) =
      before.map turnLine ++ turnLine row :: behind.map turnLine := by
    rw [lines_turnLines, hlines, List.map_append, List.map_cons]
  have hbefore : (before.map turnLine).flatten.length = before.flatten.length := by
    rw [List.length_flatten, List.length_flatten, List.map_map]
    congr 1
    exact List.map_congr_left fun row _ => length_turnLine row
  have hslice := slice_of_lines_eq_append hturned
  rw [hbefore, length_turnLine] at hslice
  rw [hslice, slice_of_lines_eq_append hlines]

theorem isChain_slice (h : r ∈ lineSpans gs) :
    (r.slice gs).IsChain fun a b => joins a b = true := by
  obtain ⟨before, row, behind, hlines, rfl⟩ := exists_line_of_mem_lineSpans h
  rw [slice_of_lines_eq_append hlines]
  exact List.isChain_of_mem_splitBy (hlines.symm ▸ List.mem_append_right _ List.mem_cons_self)

theorem marker_turnLine (h : row.IsChain fun a b => joins a b = true) :
    marker (turnLine row) = marker row := by
  have hturned := body_append_marker (turnLine row)
  rw [body_turnLine h, turnLine] at hturned
  exact List.append_cancel_left hturned

theorem rtl_turnBody (gs : List (Glyph α τ)) : ∀ g ∈ turnBody gs, g.rtl = true := by
  simp [turnBody]

/-- A line that leads with text still does once it is turned around. -/
theorem annotates_head_turnBody (hlead : ∀ g ∈ gs.head?, g.annotates = false) :
    ∀ g ∈ (turnBody gs).head?, g.annotates = false := by
  obtain ⟨us, hus, _⟩ := existsUnique_makeUp gs
  intro g hg
  have hunturned := congrArg List.head? (map_unturned_turnBody gs)
  rw [List.head?_map, List.head?_map, hg, Option.map_some] at hunturned
  obtain ⟨k, hk, hsame⟩ := Option.map_eq_some_iff.mp hunturned.symm
  rw [hus.turnUnits_eq] at hk
  have hann := congrArg annotates hsame
  exact hann.symm.trans (hus.annotates_head hlead k hk)

/-- How a line is turned around: the replaced glyph stays behind the rest, whose units come in the
opposite order, each turned around. -/
structure LineTurns (row turned : List (Glyph α τ)) : Prop where
  marker : marker turned = marker row
  makeUp : ∃! us, MakeUp us (body row)
  units : ∀ us, MakeUp us (body row) →
    (body turned).map unturned = (us.reverse.flatMap TextUnit.turned).map unturned
  perm : ((body turned).map unturned).Perm ((body row).map unturned)
  reverse : (∀ g ∈ body row, g.annotates = false) →
    (body turned).map unturned = ((body row).map unturned).reverse
  rtl : ∀ g ∈ body turned, g.rtl = true
  /-- A break before the line stays before it, and the line holds no other. -/
  lead : leadsWithBreak (body turned) = leadsWithBreak (body row)
  unbroken : (∀ g ∈ body turned, g.split ≠ .replace) ∧
    ∀ g ∈ (body turned).tail, g.split ≠ .before

theorem lineTurns_turnLine (h : row.IsChain fun a b => joins a b = true) :
    LineTurns row (turnLine row) := by
  have hbody : (body (turnLine row)).map unturned = (turnUnits (body row)).map unturned := by
    rw [body_turnLine h, map_unturned_turnBody]
  obtain ⟨us, hus, _⟩ := existsUnique_makeUp (body row)
  obtain ⟨hreplace, hbefore, hlead⟩ :=
    turnBody_breaks (fun _ => mem_body h) fun _ => mem_tail_body h
  rw [← body_turnLine h] at hreplace hbefore hlead
  refine ⟨marker_turnLine h, existsUnique_makeUp _, fun us hus => ?_, ?_, fun hann => ?_, ?_,
    hlead, hreplace, hbefore⟩
  · rw [hbody, hus.turnUnits_eq]
  · rw [hbody]
    exact (turnUnits_perm _).map _
  · rw [hbody, hus.turnUnits_eq, hus.reverse_eq hann, List.map_reverse]
  · rw [body_turnLine h]
    exact rtl_turnBody _

/-- Turning the lines around leaves every line where it is and turns it around. -/
theorem lineTurns_turnLines (gs : List (Glyph α τ)) : lineSpans (turnLines gs) = lineSpans gs ∧
    ∀ r ∈ lineSpans gs, LineTurns (r.slice gs) (r.slice (turnLines gs)) := by
  refine ⟨lineSpans_turnLines gs, fun r hr => ?_⟩
  rw [slice_turnLines hr]
  exact lineTurns_turnLine (isChain_slice hr)

end Typeset
