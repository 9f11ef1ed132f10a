import Typeset.Break.Spelling
import Typeset.Proofs.RightToLeft

/-!
# Lines as text show every glyph

The spans of the lines, the text of each line and the text with bars are read off the breaks apart
from each other. They show the same lines: the texts hold all glyphs but those replaced at the ends
of lines, and bars stand where lines come apart, so the pieces between bars are the texts.
-/

namespace Typeset

open Glyph

/-- The pieces of a text between its bars, empty ones left out. -/
def pieces (cs : List Char) : List (List Char) := (cs.splitOn '|').filter (· ≠ [])

section Pieces

theorem pieces_append_bar (l m : List Char) : pieces (l ++ '|' :: m) = pieces l ++ pieces m := by
  rw [pieces, List.splitOn_append_cons_self, List.filter_append]
  rfl

theorem pieces_cons_bar (l : List Char) : pieces ('|' :: l) = pieces l := pieces_append_bar [] l

theorem pieces_concat_bar (l : List Char) : pieces (l ++ ['|']) = pieces l := by
  rw [pieces_append_bar]
  exact List.append_nil _

/-- Bars around a text without bars leave it in one piece, if there is anything of it. -/
theorem pieces_between_bars {cs : List Char} (h : '|' ∉ cs) (b b' : Bool) :
    pieces ((if b then ['|'] else []) ++ cs ++ if b' then ['|'] else []) =
      [cs].filter (· ≠ []) := by
  have hcs : pieces cs = [cs].filter (· ≠ []) := by rw [pieces, List.splitOn_eq_singleton h]
  cases b <;> cases b' <;> simp [pieces_concat_bar, pieces_cons_bar, hcs]

/-- A text whose two parts meet at a bar has the pieces of both. -/
theorem pieces_append {l m : List Char} (h : (∃ k, l = k ++ ['|']) ∨ ∃ k, m = '|' :: k) :
    pieces (l ++ m) = pieces l ++ pieces m := by
  rcases h with ⟨k, rfl⟩ | ⟨k, rfl⟩
  · rw [List.append_assoc, List.singleton_append, pieces_append_bar, pieces_concat_bar]
  · rw [pieces_append_bar, pieces_cons_bar]

end Pieces

variable {α τ : Type} {gs row : List (Glyph α τ)}

/-- The text of a line with its replaced glyph put back. -/
def restored (text : String) (row : List (Glyph α τ)) : List Char :=
  text.toList ++ (marker row).map shown

/-- The spans of the lines, their texts and the text with bars show the same lines, and all glyphs
between them. -/
structure SpellsLines (gs : List (Glyph α τ)) : Prop where
  tiles : Span.Tiles 0 gs.length (lineSpans gs)
  boundary : ∀ b, 0 < b → b < gs.length →
    ((∃ r ∈ lineSpans gs, ∃ r' ∈ lineSpans gs, r.stop = b ∧ r'.start = b) ↔
      (∃ g, gs[b - 1]? = some g ∧ g.split = .replace) ∨ ∃ g, gs[b]? = some g ∧ g.split = .before)
  count : (lineTexts gs).length = (lineSpans gs).length
  texts : (List.zipWith (fun text r => restored text (r.slice gs)) (lineTexts gs)
    (lineSpans gs)).flatten = gs.map shown
  /-- A glyph is shown as its character, with one stand-in for objects and one for code points that
  are no character. -/
  shown : ∀ g ∈ gs, (g.code = 0 → g.shown = '\uFFFC') ∧
    (¬ g.code.isValidChar → g.shown = '\uFFFD') ∧
    (g.code ≠ 0 → g.code.isValidChar → g.shown.toNat = g.code)
  bars : (∀ g ∈ gs, g.code ≠ '|'.toNat) →
    (pieces (barredText gs).toList).map String.ofList = (lineTexts gs).filter (· ≠ "")

section Shown

theorem shown_spec (g : Glyph α τ) : (g.code = 0 → g.shown = '\uFFFC') ∧
    (¬ g.code.isValidChar → g.shown = '\uFFFD') ∧
    (g.code ≠ 0 → g.code.isValidChar → g.shown.toNat = g.code) := by
  have hzero : (0 : ℕ).isValidChar := by decide
  unfold Glyph.shown isObject char?
  refine ⟨fun h => by simp [h], fun h => ?_, fun hne h => ?_⟩
  · have hne : g.code ≠ 0 := fun h0 => h (h0 ▸ hzero)
    simp [h, hne]
  · have hchar : (Char.ofNat g.code).toNat = g.code := by
      rw [Char.ofNat, dif_pos h]
      rfl
    simp [h, hne, hchar]

/-- Only the bar is shown as a bar. -/
theorem shown_ne_bar {g : Glyph α τ} (h : g.code ≠ '|'.toNat) : g.shown ≠ '|' := by
  obtain ⟨hobject, hinvalid, hchar⟩ := shown_spec g
  intro hbar
  rw [hbar] at hobject hinvalid hchar
  by_cases h0 : g.code = 0
  · exact absurd (hobject h0) (by decide)
  · by_cases hvalid : g.code.isValidChar
    · exact h (hchar h0 hvalid).symm
    · exact absurd (hinvalid hvalid) (by decide)

end Shown

section Texts

/-- The text of a line is that of its glyphs but the replaced one. -/
theorem toList_lineText (h : row.IsChain fun a b => joins a b = true) :
    (lineText row).toList = (body row).map shown := by
  have hbody : (body row).filter (fun g => g.split != .replace) = body row :=
    List.filter_eq_self.mpr fun g hg => by simpa using mem_body h hg
  have hmarker : (marker row).filter (fun g => g.split != .replace) = [] :=
    List.filter_eq_nil_iff.mpr fun g hg => by simp [(mem_marker hg).2.2]
  rw [lineText, String.toList_ofList]
  conv_lhs => rw [← body_append_marker row]
  rw [List.filter_append, hbody, hmarker, List.append_nil]

theorem restored_lineText (h : row.IsChain fun a b => joins a b = true) :
    restored (lineText row) row = row.map shown := by
  rw [restored, toList_lineText h, ← List.map_append, body_append_marker]

end Texts

section Boundaries

/-- Two spans of lines meet exactly where the breaks cut the text. -/
theorem exists_lineSpans_meet_iff {b : ℕ} (hpos : 0 < b) (hlt : b < gs.length) :
    (∃ r ∈ lineSpans gs, ∃ r' ∈ lineSpans gs, r.stop = b ∧ r'.start = b) ↔ IsCut gs b := by
  constructor
  · rintro ⟨r, hr, _, _, rfl, _⟩
    exact (isCut_ends_of_mem_lineSpans hr).2.1
  · intro hcut
    have htiles := tiles_lineSpans gs
    obtain ⟨r, hr, hstart, hstop⟩ := htiles.exists_mem (Nat.zero_le (b - 1)) (by omega)
    obtain ⟨r', hr', hstart', hstop'⟩ := htiles.exists_mem (Nat.zero_le b) hlt
    -- a cut inside a line is not possible
    refine ⟨r, hr, r', hr', ?_, ?_⟩
    · by_contra hne
      exact (isCut_ends_of_mem_lineSpans hr).2.2 b (by omega) (by omega) hcut
    · by_contra hne
      exact (isCut_ends_of_mem_lineSpans hr').2.2 b (by omega) hstop' hcut

end Boundaries

section Bars

/-- What a line adds to the text with bars: its text, a bar before it if a break leads it, and a bar
for its replaced glyph. -/
theorem flatMap_barred (h : row.IsChain fun a b => joins a b = true) :
    row.flatMap barred = (if leadsWithBreak row then ['|'] else []) ++ (lineText row).toList ++
      if endsReplaced row then ['|'] else [] := by
  have hmarker : (marker row).flatMap barred = if endsReplaced row then ['|'] else [] := by
    split_ifs with hends
    · obtain ⟨m, _, hm, hsplit⟩ := exists_marker hends
      simp [hm, barred, hsplit]
    · simp [marker, hends]
  have hbody : (body row).flatMap barred =
      (if leadsWithBreak row then ['|'] else []) ++ (body row).map shown := by
    cases hcons : body row with
    | nil => simp [leadsWithBreak_of_body_nil hcons]
    | cons g rest =>
      have hlead : leadsWithBreak row = (g.split == .before) := by
        conv_lhs => rw [← body_append_marker row, hcons]
        rfl
      have hg : g.split ≠ .replace := mem_body h (by simp [hcons])
      have hrest : rest.flatMap barred = rest.map shown := by
        rw [List.map_eq_flatMap]
        refine List.flatMap_congr fun k hk => ?_
        have hreplace : k.split ≠ .replace := mem_body h (by simp [hcons, hk])
        have hbefore : k.split ≠ .before := mem_tail_body h (by simp [hcons, hk])
        cases hsplit : k.split <;> simp_all [barred]
      rw [List.flatMap_cons, hrest, hlead, List.map_cons]
      cases hsplit : g.split <;> simp_all [barred]
  conv_lhs => rw [← body_append_marker row]
  rw [List.flatMap_append, hbody, hmarker, toList_lineText h]

theorem pieces_flatMap_barred (h : row.IsChain fun a b => joins a b = true)
    (hbar : ∀ g ∈ row, g.shown ≠ '|') :
    pieces (row.flatMap barred) = [(lineText row).toList].filter (· ≠ []) := by
  have hunbarred : '|' ∉ (lineText row).toList := by
    rw [toList_lineText h]
    intro hmem
    obtain ⟨g, hg, hshown⟩ := List.mem_map.mp hmem
    exact hbar g ((body_sublist row).subset hg) hshown
  rw [flatMap_barred h]
  exact pieces_between_bars hunbarred _ _

/-- Between bars stand the texts of the lines. -/
theorem pieces_lines {rows : List (List (Glyph α τ))}
    (hrows : ∀ row ∈ rows, row.IsChain fun a b => joins a b = true)
    (hparts : rows.IsChain fun a b => ∃ ha hb, joins (a.getLast ha) (b.head hb) = false)
    (hbar : ∀ row ∈ rows, ∀ g ∈ row, g.shown ≠ '|') :
    pieces (rows.flatten.flatMap barred) =
      (rows.map fun row => (lineText row).toList).filter (· ≠ []) := by
  induction rows with
  | nil => rfl
  | cons row rows ih =>
    rw [List.forall_mem_cons] at hrows hbar
    have hrest := ih hrows.2 hparts.of_cons hbar.2
    have hmeet : pieces (row.flatMap barred ++ rows.flatten.flatMap barred) =
        pieces (row.flatMap barred) ++ pieces (rows.flatten.flatMap barred) := by
      cases rows with
      | nil => simp [pieces]
      | cons row' rows =>
        have hpart := (List.isChain_cons_cons.mp hparts).1
        obtain ⟨_, _, hends | hleads⟩ := (parts_iff row row').mp hpart
        · apply pieces_append
          rw [flatMap_barred hrows.1, if_pos hends]
          exact .inl ⟨_, rfl⟩
        · apply pieces_append
          rw [List.flatten_cons, List.flatMap_append, flatMap_barred (hrows.2 row' (by simp)),
            if_pos hleads]
          exact .inr ⟨_, rfl⟩
    rw [List.flatten_cons, List.flatMap_append, hmeet, pieces_flatMap_barred hrows.1 hbar.1, hrest,
      List.map_cons, ← List.filter_append]
    rfl

end Bars

/-- Spans, texts and bars spell the same lines, and lose no glyph. -/
theorem barredText_spellsLines (gs : List (Glyph α τ)) : SpellsLines gs where
  tiles := tiles_lineSpans gs
  boundary b hpos hlt := by
    obtain ⟨c, rfl⟩ : ∃ c, b = c + 1 := ⟨b - 1, by omega⟩
    have hg : gs[c]? = some gs[c] := List.getElem?_eq_getElem _
    have hh : gs[c + 1]? = some gs[c + 1] := List.getElem?_eq_getElem _
    rw [exists_lineSpans_meet_iff hpos hlt, isCut_succ_iff hg hh, Nat.add_sub_cancel, hg, hh]
    simp
  count := by rw [lineTexts, lineSpans, Span.length_ofLengths, List.length_map, List.length_map]
  texts := by
    have hslices : List.zipWith (fun text (r : Span) => restored text (r.slice gs)) (lineTexts gs)
        (lineSpans gs) = List.zipWith restored (lineTexts gs) (lines gs) := by
      rw [← List.zipWith_map_right, map_slice_lineSpans]
    have hrows : List.zipWith restored (lineTexts gs) (lines gs) =
        (lines gs).map (List.map shown) := by
      rw [lineTexts, List.zipWith_map_left, List.zipWith_self]
      exact List.map_congr_left fun row hrow => restored_lineText (List.isChain_of_mem_splitBy hrow)
    rw [hslices, hrows, ← List.map_flatten, flatten_lines]
  shown g _ := shown_spec g
  bars hbar := by
    have hne : ∀ row ∈ lines gs, ∀ g ∈ row, g.shown ≠ '|' := fun row hrow g hg =>
      shown_ne_bar (hbar g (mem_iff_exists_line.mpr ⟨row, hrow, hg⟩))
    have hpieces : pieces ((lines gs).flatten.flatMap barred) =
        ((lines gs).map fun row => (lineText row).toList).filter (· ≠ []) :=
      pieces_lines (fun row => List.isChain_of_mem_splitBy)
        (List.isChain_getLast_head_splitBy joins gs) hne
    have hbarred : pieces (barredText gs).toList = pieces (gs.flatMap barred) := by
      rw [barredText, String.toList_ofList, pieces_cons_bar, pieces_concat_bar]
    rw [flatten_lines] at hpieces
    rw [hbarred, hpieces, lineTexts, List.filter_map, List.filter_map, List.map_map]
    simp [Function.comp_def]

/-- A break before the first letter, two replaced spaces in a row, a break behind a replaced space,
an object, and a replaced glyph that is no character at the end. -/
def doubledBreaks : List (Glyph ℚ ℚ) :=
  [{ (.ofCode 97 1 : Glyph ℚ ℚ) with split := .before },
    { (.ofCode 32 1 : Glyph ℚ ℚ) with split := .replace },
    { (.ofCode 32 1 : Glyph ℚ ℚ) with split := .replace },
    { (.ofCode 98 1 : Glyph ℚ ℚ) with split := .before }, .object 1 1,
    { (.ofCode 0xD800 1 : Glyph ℚ ℚ) with split := .replace }]

theorem barredText_spellsLines_doubledBreaks :
    (lineSpans doubledBreaks).map (fun r => (r.start, r.stop)) = [(0, 2), (2, 3), (3, 6)] ∧
      lineTexts doubledBreaks = ["a", "", "b\uFFFC"] ∧
      barredText doubledBreaks = "||a|||b\uFFFC||" ∧ (∀ g ∈ doubledBreaks, g.code ≠ '|'.toNat) ∧
      (pieces (barredText doubledBreaks).toList).map String.ofList =
        (lineTexts doubledBreaks).filter (· ≠ "") := by
  have hbar : ∀ g ∈ doubledBreaks, g.code ≠ '|'.toNat := by decide
  exact ⟨by decide, by decide, by decide, hbar, (barredText_spellsLines doubledBreaks).bars hbar⟩

end Typeset
