import Typeset.Proofs.RightToLeft

/-!
# Lines cover the text

Setting a paragraph cuts its glyphs into rows, permutes each row at most, and keeps the content of
every glyph. Paragraphs are set one behind the other, so the rows of a layout cover the whole text,
none of them reaches into two paragraphs, and no glyph leaves its row.
-/

namespace Typeset

open Glyph

variable {α τ : Type}

section Rows

variable {β γ δ : Type}

theorem forall₂_flatten_split {R : β → γ → Prop} {gs : List β} {rows : List (List γ)}
    (h : List.Forall₂ R gs rows.flatten) :
    ∃ pieces : List (List β), pieces.flatten = gs ∧
      List.Forall₂ (List.Forall₂ R) pieces rows := by
  induction rows generalizing gs with
  | nil => exact ⟨[], (List.forall₂_nil_right_iff.mp h).symm, .nil⟩
  | cons row rows ih =>
    have htake := List.forall₂_take_append gs row rows.flatten h
    have hdrop := List.forall₂_drop_append gs row rows.flatten h
    obtain ⟨pieces, hflat, hpieces⟩ := ih hdrop
    refine ⟨gs.take row.length :: pieces, ?_, .cons htake hpieces⟩
    rw [List.flatten_cons, hflat, List.take_append_drop]

theorem forall₂_span {R : β → γ → Prop} {l : List β} {m : List γ} (h : List.Forall₂ R l m)
    (u : Span) : List.Forall₂ R (u.slice l) (u.slice m) :=
  List.forall₂_take _ (List.forall₂_drop _ h)

theorem forall₂_slice {R : β → γ → Prop} {l m n : List β} {gs : List γ}
    (h : List.Forall₂ R (l ++ (m ++ n)) gs) :
    List.Forall₂ R m ((⟨l.length, l.length + m.length⟩ : Span).slice gs) := by
  have hslice := forall₂_span h ⟨l.length, l.length + m.length⟩
  rwa [Span.slice_append_mid rfl (Nat.add_sub_cancel_left ..).symm] at hslice

theorem forall₂_exists_mid {P : β → γ → Prop} {Q : β → δ → Prop} {l : List γ} {m : List δ}
    (h : List.Forall₂ (fun a c => ∃ b, P b a ∧ Q b c) l m) :
    ∃ mid, List.Forall₂ P mid l ∧ List.Forall₂ Q mid m := by
  induction h with
  | nil => exact ⟨[], .nil, .nil⟩
  | cons hab _ ih =>
    obtain ⟨b, hP, hQ⟩ := hab
    obtain ⟨mid, hl, hm⟩ := ih
    exact ⟨b :: mid, .cons hP hl, .cons hQ hm⟩

theorem map_length_congr {R : List β → List γ → Prop} (hR : ∀ a b, R a b → a.length = b.length)
    {l : List (List β)} {m : List (List γ)} (h : List.Forall₂ R l m) :
    l.map List.length = m.map List.length := by
  induction h with
  | nil => rfl
  | cons hab _ ih => rw [List.map_cons, List.map_cons, hR _ _ hab, ih]

theorem perm_flatten {l m : List (List β)} (h : List.Forall₂ List.Perm l m) :
    l.flatten.Perm m.flatten := by
  induction h with
  | nil => exact .refl _
  | cons hab _ ih =>
    rw [List.flatten_cons, List.flatten_cons]
    exact hab.append ih

end Rows

section Stack

theorem endParagraph_concat (rows : List (Line α τ)) (l : Line α τ) :
    endParagraph (rows ++ [l]) = rows ++ [{ l with endsParagraph := true }] := by
  simp [endParagraph]

theorem map_span_endParagraph (rows : List (Line α τ)) :
    (endParagraph rows).map Line.span = rows.map Line.span := by
  rcases List.eq_nil_or_concat' rows with rfl | ⟨init, l, rfl⟩
  · rfl
  · simp [endParagraph_concat]

/-- The end of the paragraph is marked on the line that reaches it. -/
theorem endsParagraph_iff {rows : List (Line α τ)} (h : ∀ l ∈ rows, l.endsParagraph = false)
    {start stop : ℕ} (htiles : Span.Tiles start stop (rows.map Line.span)) :
    ∀ l ∈ endParagraph rows, l.endsParagraph = true ↔ l.span.stop = stop := by
  rcases List.eq_nil_or_concat' rows with rfl | ⟨init, last, rfl⟩
  · simp [endParagraph]
  · intro l hl
    rw [List.map_append, Span.tiles_append] at htiles
    obtain ⟨mid, hinit, _, hlt, hstop⟩ := htiles
    have hend : last.span.stop = stop := hstop
    rw [endParagraph_concat, List.mem_append, List.mem_singleton] at hl
    rcases hl with hl | rfl
    · have hle := (hinit.bounds (List.mem_map_of_mem hl)).2.2
      rw [h l (by simp [hl])]
      simp only [Bool.false_eq_true, false_iff]
      omega
    · simpa using hend

variable [Scalar α] [Zero τ]

theorem span_stack (spacing : LineSpacing α) (y : α) (n : ℕ) (rows : List (List (Glyph α τ))) :
    (sweep (stackStep spacing) (y, n) rows).2.map (fun p => p.1.span) =
      Span.ofLengths n (rows.map List.length) := by
  induction rows generalizing y n with
  | nil => rfl
  | cons row rows ih =>
    rw [sweep_cons, List.map_cons, ih, List.map_cons, Span.ofLengths_cons]
    rfl

theorem endsParagraph_stack (spacing : LineSpacing α) (pos : α × ℕ)
    (rows : List (List (Glyph α τ))) :
    ∀ p ∈ (sweep (stackStep spacing) pos rows).2, p.1.endsParagraph = false := by
  induction rows generalizing pos with
  | nil => simp
  | cons row rows ih =>
    rw [sweep_cons]
    intro p hp
    rcases List.mem_cons.mp hp with rfl | hp
    · rfl
    · exact ih _ p hp

theorem span_placeDown (spacing : LineSpacing α) (y : α) (gs : List (Glyph α τ)) :
    (placeDown spacing y gs).lines.map Line.span = lineSpans gs := by
  have h := span_stack spacing y 0 (lines gs)
  rw [lineSpans, ← h, placeDown, map_span_endParagraph, List.map_map]
  rfl

theorem endsParagraph_placeDown (spacing : LineSpacing α) (y : α) (gs : List (Glyph α τ)) :
    ∀ l ∈ (placeDown spacing y gs).lines, l.endsParagraph = true ↔ l.span.stop = gs.length := by
  have htiles := tiles_lineSpans gs
  rw [← span_placeDown spacing y gs, placeDown, map_span_endParagraph] at htiles
  refine endsParagraph_iff ?_ htiles
  intro l hl
  obtain ⟨p, hp, rfl⟩ := List.mem_map.mp hl
  exact endsParagraph_stack spacing (y, 0) (lines gs) p hp

end Stack

/-- A text set in rows at the given spans: each row holds its glyphs, in order unless the text is
turned around. -/
def SetAt [Scalar α] (start : ℕ) (rtl : Bool) (gs hs : List (Glyph α τ)) (spans : List Span) :
    Prop :=
  ∃ rows turned : List (List (Glyph α τ)), rows.flatten = gs ∧ (∀ row ∈ rows, 0 < row.length) ∧
    spans = Span.ofLengths start (rows.map List.length) ∧ List.Forall₂ List.Perm turned rows ∧
      (rtl = false → turned = rows) ∧ List.Forall₂ Keeps turned.flatten hs

section SetAt

variable [Scalar α] {start : ℕ} {rtl : Bool} {gs hs : List (Glyph α τ)} {spans : List Span}

theorem SetAt.append {gs' hs' : List (Glyph α τ)} {spans' : List Span}
    (h : SetAt start rtl gs hs spans) (h' : SetAt (start + gs.length) rtl gs' hs' spans') :
    SetAt start rtl (gs ++ gs') (hs ++ hs') (spans ++ spans') := by
  obtain ⟨rows, turned, rfl, hpos, rfl, hperm, hltr, hkeeps⟩ := h
  obtain ⟨rows', turned', rfl, hpos', rfl, hperm', hltr', hkeeps'⟩ := h'
  refine ⟨rows ++ rows', turned ++ turned', by simp, ?_, ?_, List.rel_append hperm hperm', ?_, ?_⟩
  · intro row hrow
    exact (List.mem_append.mp hrow).elim (hpos row) (hpos' row)
  · rw [List.map_append, Span.ofLengths_append, List.length_flatten]
  · intro hrtl
    rw [hltr hrtl, hltr' hrtl]
  · rw [List.flatten_append]
    exact List.rel_append hkeeps hkeeps'

theorem SetAt.keeps {ks : List (Glyph α τ)} (h : SetAt start rtl gs hs spans)
    (hk : List.Forall₂ Keeps hs ks) : SetAt start rtl gs ks spans := by
  obtain ⟨rows, turned, hrows, hpos, hspans, hperm, hltr, hkeeps⟩ := h
  exact ⟨rows, turned, hrows, hpos, hspans, hperm, hltr,
    forall₂_trans (R := Keeps) (fun _ _ _ => Keeps.trans) hkeeps hk⟩

theorem SetAt.length_eq (h : SetAt start rtl gs hs spans) : hs.length = gs.length := by
  obtain ⟨rows, turned, rfl, _, _, hperm, _, hkeeps⟩ := h
  rw [← hkeeps.length_eq, (perm_flatten hperm).length_eq]

theorem SetAt.tiles (h : SetAt start rtl gs hs spans) :
    Span.Tiles start (start + gs.length) spans := by
  obtain ⟨rows, _, rfl, hpos, rfl, _⟩ := h
  rw [List.length_flatten]
  refine Span.tiles_ofLengths start ?_
  intro n hn
  obtain ⟨row, hrow, rfl⟩ := List.mem_map.mp hn
  exact hpos row hrow

/-- Read off the spans: the glyphs of each span stay in it. -/
theorem SetAt.exists_order (h : SetAt 0 rtl gs hs spans) :
    ∃ order, (rtl = false → order = gs) ∧ order.Perm gs ∧
      (∀ s ∈ spans, (s.slice order).Perm (s.slice gs)) ∧ List.Forall₂ Keeps order hs := by
  obtain ⟨rows, turned, rfl, _, rfl, hperm, hltr, hkeeps⟩ := h
  have hlen : turned.map List.length = rows.map List.length :=
    map_length_congr (fun _ _ h => List.Perm.length_eq h) hperm
  have hturned := Span.map_slice_ofLengths [] turned
  have hrows := Span.map_slice_ofLengths [] rows
  rw [hlen] at hturned
  refine ⟨turned.flatten, fun hrtl => by rw [hltr hrtl], perm_flatten hperm, ?_, hkeeps⟩
  rw [← hrows, ← hturned, List.forall₂_map_left_iff, List.forall₂_map_right_iff] at hperm
  exact List.forall₂_same.mp hperm

end SetAt

section Layout

theorem map_span_timeLines [Scalar τ] (gs : List (Glyph α τ)) (rows : List (Line α τ)) :
    (timeLines gs rows).map Line.span = rows.map Line.span := by
  rw [timeLines, List.map_map]
  rfl

variable [Scalar α]

theorem map_split_placeAcross (start first rest : α) (gs : List (Glyph α τ)) :
    (placeAcross start first rest gs).map split = gs.map split :=
  map_eq_of_forall₂ (moved_placeAcross start first rest gs) fun _ _ _ => Moved.split

theorem lineSpans_placeAcross (start first rest : α) (gs : List (Glyph α τ)) :
    lineSpans (placeAcross start first rest gs) = lineSpans gs := by
  rw [lineSpans, map_length_lines_congr (map_split_placeAcross start first rest gs), lineSpans]

variable [Scalar τ]

/-- From its place on the line to the end of its paragraph a glyph stays there. -/
theorem stays_layParagraph (s : Style α τ) (table : ClassTable) (start : Style.Start α τ)
    (gs : List (Glyph α τ)) :
    List.Forall₂ Stays
      (placeAcross s.left s.firstIndent s.restIndent (s.orderLines (s.breakLines table gs)))
      (s.layParagraph table start gs).2.2 := by
  unfold Style.layParagraph
  dsimp only
  generalize placeAcross s.left s.firstIndent s.restIndent _ = placed
  have hdown := stays_placeDown s.spacing start.y placed
  have hnotes := stays_placeAnnotations s.rubyOffsets (placeDown s.spacing start.y placed).glyphs
  exact forall₂_trans (R := Stays) (fun _ _ _ => Stays.trans) hdown
    (forall₂_trans (R := Stays) (fun _ _ _ => Stays.trans) hnotes (stays_assignTimes ..))

theorem span_layParagraph (s : Style α τ) (table : ClassTable) (start : Style.Start α τ)
    (gs : List (Glyph α τ)) :
    (s.layParagraph table start gs).2.1.map Line.span =
      (lineSpans (s.orderLines (s.breakLines table gs))).map (Span.shift start.index) := by
  rw [← lineSpans_placeAcross s.left s.firstIndent s.restIndent, ← span_placeDown s.spacing start.y,
    Style.layParagraph, List.map_map, List.map_map]
  rfl

/-- Breaking and ordering a paragraph leaves its rows as the breaks cut them. -/
theorem rows_orderLines (s : Style α τ) (table : ClassTable) (gs : List (Glyph α τ)) :
    ∃ rows turned : List (List (Glyph α τ)), rows.flatten = gs ∧ (∀ row ∈ rows, 0 < row.length) ∧
      lineSpans (s.orderLines (s.breakLines table gs)) =
        Span.ofLengths 0 (rows.map List.length) ∧ List.Forall₂ List.Perm turned rows ∧
      (s.rtl = false → turned = rows) ∧
      List.Forall₂ Keeps turned.flatten (s.orderLines (s.breakLines table gs)) := by
  have hkeeps : List.Forall₂ Keeps gs (lines (s.breakLines table gs)).flatten := by
    rw [flatten_lines]
    exact (resplit_breakLines s table gs).imp fun _ _ => Resplit.keeps
  obtain ⟨rows, rfl, hrows⟩ := forall₂_flatten_split hkeeps
  have hlen : rows.map List.length = (lines (s.breakLines table rows.flatten)).map List.length :=
    map_length_congr (fun _ _ h => List.Forall₂.length_eq h) hrows
  have hpos : ∀ row ∈ rows, 0 < row.length := by
    intro row hrow
    have hmem := List.mem_map_of_mem (f := List.length) hrow
    rw [hlen] at hmem
    obtain ⟨k, hk, hrowk⟩ := List.mem_map.mp hmem
    exact hrowk ▸ length_pos_of_mem_lines hk
  unfold Style.orderLines
  cases hrtl : s.rtl with
  | false =>
    refine ⟨rows, rows, rfl, hpos, ?_, forall₂_refl List.Perm.refl rows, fun _ => rfl, ?_⟩
    · rw [hlen]
      rfl
    · simpa using List.rel_flatten hrows
  | true =>
    have hcarries : List.Forall₂ Carries rows
        ((lines (s.breakLines table rows.flatten)).map turnLine) := by
      rw [List.forall₂_map_right_iff]
      exact hrows.imp fun row k h => (Carries.of_forall₂ h).trans (carries_turnLine k)
    obtain ⟨turned, hperm, hturned⟩ := forall₂_exists_mid hcarries
    refine ⟨rows, turned, rfl, hpos, ?_, hperm, fun h => (by cases h), ?_⟩
    · have hturn : List.length ∘ turnLine = (List.length : List (Glyph α τ) → ℕ) :=
        funext length_turnLine
      rw [hlen, if_pos rfl, lineSpans, lines_turnLines, List.map_map, hturn]
    · have h := List.rel_flatten hturned
      rwa [← List.flatMap_def] at h

theorem setAt_layParagraph (s : Style α τ) (table : ClassTable) (start : Style.Start α τ)
    (gs : List (Glyph α τ)) :
    SetAt start.index s.rtl gs (s.layParagraph table start gs).2.2
      ((s.layParagraph table start gs).2.1.map Line.span) := by
  obtain ⟨rows, turned, hrows, hpos, hspans, hperm, hltr, hkeeps⟩ := rows_orderLines s table gs
  refine ⟨rows, turned, hrows, hpos, ?_, hperm, hltr, ?_⟩
  · rw [span_layParagraph, hspans, Span.shift_ofLengths, Nat.zero_add]
  · have hplaced : List.Forall₂ Keeps (s.orderLines (s.breakLines table gs))
        (placeAcross s.left s.firstIndent s.restIndent
          (s.orderLines (s.breakLines table gs))) :=
      (moved_placeAcross ..).imp fun _ _ => Moved.keeps
    exact forall₂_trans (R := Keeps) (fun _ _ _ => Keeps.trans) hkeeps
      (forall₂_trans (R := Keeps) (fun _ _ _ => Keeps.trans) hplaced
        ((stays_layParagraph s table start gs).imp fun _ _ => Stays.toKeeps))

theorem start_le_stop_layParagraph (s : Style α τ) (table : ClassTable)
    (start : Style.Start α τ) (gs : List (Glyph α τ)) :
    ∀ l ∈ (s.layParagraph table start gs).2.1, l.span.start ≤ l.span.stop := by
  intro l hl
  exact ((setAt_layParagraph s table start gs).tiles.bounds (List.mem_map_of_mem hl)).2.1.le

theorem index_layParagraph (s : Style α τ) (table : ClassTable) (start : Style.Start α τ)
    (gs : List (Glyph α τ)) :
    (s.layParagraph table start gs).1.index = start.index + gs.length := by
  rw [← (setAt_layParagraph s table start gs).length_eq]
  rfl

theorem endsParagraph_layParagraph (s : Style α τ) (table : ClassTable) (start : Style.Start α τ)
    (gs : List (Glyph α τ)) : ∀ l ∈ (s.layParagraph table start gs).2.1,
      l.endsParagraph = true ↔ l.span.stop = start.index + gs.length := by
  intro l hl
  obtain ⟨k, hk, rfl⟩ := List.mem_map.mp hl
  have h := endsParagraph_placeDown _ _ _ k hk
  have hlen : (placeAcross s.left s.firstIndent s.restIndent
      (s.orderLines (s.breakLines table gs))).length = gs.length :=
    (stays_layParagraph s table start gs).length_eq.trans
      (setAt_layParagraph s table start gs).length_eq
  rw [h, hlen]
  simp only [Span.shift]
  omega

/-- The pieces of a walk over the paragraphs. -/
theorem setAt_sweep (s : Style α τ) (table : ClassTable) (start : Style.Start α τ)
    (blocks : List (List (Glyph α τ))) :
    SetAt start.index s.rtl blocks.flatten
      ((sweep (s.layParagraph table) start blocks).2.flatMap Prod.snd)
      (((sweep (s.layParagraph table) start blocks).2.flatMap Prod.fst).map Line.span) := by
  induction blocks generalizing start with
  | nil => exact ⟨[], [], rfl, by simp, rfl, .nil, fun _ => rfl, .nil⟩
  | cons gs blocks ih =>
    have h := ih (s.layParagraph table start gs).1
    rw [index_layParagraph] at h
    simp only [sweep_cons, List.flatten_cons, List.flatMap_cons, List.map_append]
    exact (setAt_layParagraph s table start gs).append h

theorem start_le_stop_sweep (s : Style α τ) (table : ClassTable) (start : Style.Start α τ)
    (blocks : List (List (Glyph α τ))) :
    ∀ l ∈ (sweep (s.layParagraph table) start blocks).2.flatMap Prod.fst,
      l.span.start ≤ l.span.stop := by
  intro l hl
  have htiles := (setAt_sweep s table start blocks).tiles
  exact (htiles.bounds (List.mem_map_of_mem hl)).2.1.le

theorem line_in_block (s : Style α τ) (table : ClassTable) (start : Style.Start α τ)
    (blocks : List (List (Glyph α τ))) :
    ∀ l ∈ (sweep (s.layParagraph table) start blocks).2.flatMap Prod.fst,
      ∃ b ∈ Span.ofLengths start.index (blocks.map List.length), b.start ≤ l.span.start ∧
        l.span.stop ≤ b.stop ∧ (l.endsParagraph = true ↔ l.span.stop = b.stop) := by
  induction blocks generalizing start with
  | nil => simp
  | cons gs blocks ih =>
    have h := ih (s.layParagraph table start gs).1
    rw [index_layParagraph] at h
    intro l hl
    rw [sweep_cons, List.flatMap_cons, List.mem_append] at hl
    rw [List.map_cons, Span.ofLengths_cons]
    rcases hl with hl | hl
    · have htiles := (setAt_layParagraph s table start gs).tiles
      obtain ⟨hstart, _, hstop⟩ := htiles.bounds (List.mem_map_of_mem hl)
      exact ⟨⟨start.index, start.index + gs.length⟩, by simp, hstart, hstop,
        endsParagraph_layParagraph s table start gs l hl⟩
    · obtain ⟨b, hb, hbl⟩ := h l hl
      exact ⟨b, by simp [hb], hbl⟩

theorem block_has_last_line (s : Style α τ) (table : ClassTable) (start : Style.Start α τ)
    (blocks : List (List (Glyph α τ))) :
    ∀ b ∈ Span.ofLengths start.index (blocks.map List.length), b.start < b.stop →
      ∃ l ∈ (sweep (s.layParagraph table) start blocks).2.flatMap Prod.fst,
        b.start ≤ l.span.start ∧ l.span.stop = b.stop ∧ l.endsParagraph = true := by
  induction blocks generalizing start with
  | nil => simp
  | cons gs blocks ih =>
    have h := ih (s.layParagraph table start gs).1
    rw [index_layParagraph] at h
    intro b hb hlt
    rw [List.map_cons, Span.ofLengths_cons] at hb
    simp only [sweep_cons, List.flatMap_cons, List.mem_append]
    rcases List.mem_cons.mp hb with rfl | hb
    · have htiles := (setAt_layParagraph s table start gs).tiles
      simp only at hlt ⊢
      obtain ⟨span, hspan, hle, hgt⟩ := htiles.exists_mem
        (i := start.index + gs.length - 1) (by omega) (by omega)
      obtain ⟨l, hl, rfl⟩ := List.mem_map.mp hspan
      obtain ⟨hstart, _, hstop⟩ := htiles.bounds hspan
      have hend : l.span.stop = start.index + gs.length := by omega
      exact ⟨l, .inl hl, hstart, hend, (endsParagraph_layParagraph s table start gs l hl).mpr hend⟩
    · obtain ⟨l, hl, hbl⟩ := h b hb hlt
      exact ⟨l, .inr hl, hbl⟩

/-- Where the paragraphs stand in the joined text. -/
def blockSpans (blocks : List (List (Glyph α τ))) : List Span :=
  Span.ofLengths 0 (blocks.map List.length)

/-- The lines of a layout cover its text, and the text is that of the paragraphs. -/
structure Layout.Covers (L : Layout α τ) (rtl : Bool) (blocks : List (List (Glyph α τ))) :
    Prop where
  tiles : Span.Tiles 0 L.glyphs.length (L.lines.map Line.span)
  /-- A line lies in one paragraph, which it ends exactly if it reaches its end. -/
  inBlock : ∀ l ∈ L.lines, ∃ b ∈ blockSpans blocks, b.start ≤ l.span.start ∧
    l.span.stop ≤ b.stop ∧ (l.endsParagraph = true ↔ l.span.stop = b.stop)
  lastLine : ∀ b ∈ blockSpans blocks, b.start < b.stop →
    ∃ l ∈ L.lines, b.start ≤ l.span.start ∧ l.span.stop = b.stop ∧ l.endsParagraph = true
  /-- Glyphs change places within their lines at most. -/
  inPlace : ∃ order : List (Glyph α τ), (rtl = false → order = blocks.flatten) ∧
    order.Perm blocks.flatten ∧
    (∀ l ∈ L.lines, (l.span.slice order).Perm (l.span.slice blocks.flatten)) ∧
    List.Forall₂ Keeps order L.glyphs
  /-- No later look at the lines of a buffer as long as the text leaves the buffer. -/
  inBounds : ∀ gs : List (Glyph α τ), gs.length = L.glyphs.length →
    (∀ l ∈ L.lines, l.span.fits gs.length = true) ∧
    (∀ a target, alignLines? a target L.lines gs = some (alignLines a target L.lines gs)) ∧
    timeLines? gs L.lines = some (timeLines gs L.lines) ∧
    linkAreas? gs L.lines = some (linkAreas gs L.lines)

theorem setAt_layout (s : Style α τ) (table : ClassTable) (startTime : τ)
    (blocks : List (List (Glyph α τ))) :
    SetAt 0 s.rtl blocks.flatten (s.layout table startTime blocks).glyphs
      ((s.layout table startTime blocks).lines.map Line.span) := by
  have hset := setAt_sweep s table ⟨s.top, startTime, 0⟩ blocks
  have hle := start_le_stop_sweep s table ⟨s.top, startTime, 0⟩ blocks
  unfold Style.layout
  dsimp only
  rw [map_span_timeLines]
  exact (hset.keeps (keeps_alignLines _ _ _ _ hle)).keeps
    ((stays_assignIndices _ _).imp fun _ _ => Stays.toKeeps)

theorem index_sweep (s : Style α τ) (table : ClassTable) (start : Style.Start α τ)
    (blocks : List (List (Glyph α τ))) :
    (sweep (s.layParagraph table) start blocks).1.index = start.index + blocks.flatten.length := by
  induction blocks generalizing start with
  | nil => rfl
  | cons gs blocks ih =>
    rw [sweep_cons, ih, index_layParagraph, List.flatten_cons, List.length_append, Nat.add_assoc]

section Block

variable (s : Style α τ) (table : ClassTable) (startTime : τ) (pre post : List (List (Glyph α τ)))
  (gs : List (Glyph α τ))

/-- Without alignment the glyphs of a paragraph stay where they were placed on their lines. -/
theorem stays_layout (halign : s.alignment.isLeft = true) :
    List.Forall₂ Stays
      (placeAcross s.left s.firstIndent s.restIndent (s.orderLines (s.breakLines table gs)))
      ((⟨pre.flatten.length, pre.flatten.length + gs.length⟩ : Span).slice
        (s.layout table startTime (pre ++ gs :: post)).glyphs) := by
  have hpre := (setAt_sweep s table ⟨s.top, startTime, 0⟩ pre).length_eq
  have hblock := (setAt_layParagraph s table
    (sweep (s.layParagraph table) ⟨s.top, startTime, 0⟩ pre).1 gs).length_eq
  refine forall₂_trans (R := Stays) (fun _ _ _ => Stays.trans) (stays_layParagraph s table
    (sweep (s.layParagraph table) ⟨s.top, startTime, 0⟩ pre).1 gs) ?_
  unfold Style.layout
  dsimp only
  rw [alignLines, if_pos halign, sweep_append, sweep_cons, List.flatMap_append, List.flatMap_cons,
    ← hpre, ← hblock]
  exact forall₂_slice (stays_assignIndices ..)

/-- A line with a glyph of a paragraph is one of those that the breaks of the paragraph make. -/
theorem span_layout {l : Line α τ}
    (hl : l ∈ (s.layout table startTime (pre ++ gs :: post)).lines) {i : ℕ} (hi : i < gs.length)
    (hstart : l.span.start ≤ pre.flatten.length + i)
    (hstop : pre.flatten.length + i < l.span.stop) :
    ∃ r ∈ lineSpans (s.orderLines (s.breakLines table gs)),
      l.span = r.shift pre.flatten.length := by
  have hindex : (sweep (s.layParagraph table) ⟨s.top, startTime, 0⟩ pre).1.index =
      pre.flatten.length := (index_sweep ..).trans (Nat.zero_add _)
  have hpre := (setAt_sweep s table ⟨s.top, startTime, 0⟩ pre).tiles
  generalize hmid : (sweep (s.layParagraph table) ⟨s.top, startTime, 0⟩ pre).1 = start at hindex
  have hpost := (setAt_sweep s table (s.layParagraph table start gs).1 post).tiles
  rw [index_layParagraph, hindex] at hpost
  have hspan := List.mem_map_of_mem (f := Line.span) hl
  unfold Style.layout at hspan
  dsimp only at hspan
  rw [map_span_timeLines, sweep_append, sweep_cons, List.flatMap_append, List.flatMap_cons,
    List.map_append, List.map_append, hmid, span_layParagraph, hindex] at hspan
  rcases List.mem_append.mp hspan with hspan | hspan
  · have := (hpre.bounds hspan).2.2
    simp only at this
    omega
  rcases List.mem_append.mp hspan with hspan | hspan
  · obtain ⟨r, hr, hrl⟩ := List.mem_map.mp hspan
    exact ⟨r, hr, hrl.symm⟩
  · have := (hpost.bounds hspan).1
    omega

end Block

theorem slices_in_bounds {rows : List (Line α τ)} {gs : List (Glyph α τ)}
    (h : ∀ l ∈ rows, l.span.fits gs.length = true) :
    (∀ a target, alignLines? a target rows gs = some (alignLines a target rows gs)) ∧
      timeLines? gs rows = some (timeLines gs rows) ∧
      linkAreas? gs rows = some (linkAreas gs rows) := by
  have hall : rows.all (fun l => l.span.fits gs.length) = true := List.all_eq_true.mpr h
  refine ⟨fun a target => ?_, ?_, ?_⟩
  · rw [alignLines?, hall, Bool.or_true, if_pos rfl]
  · rw [timeLines?, if_pos hall]
  · rw [linkAreas?, if_pos hall]

theorem Style.layout_covers (s : Style α τ) (table : ClassTable) (startTime : τ)
    (blocks : List (List (Glyph α τ))) : (s.layout table startTime blocks).Covers s.rtl blocks := by
  have hset := setAt_layout s table startTime blocks
  have htiles := hset.tiles
  have hlen := hset.length_eq
  rw [Nat.zero_add, ← hlen] at htiles
  refine ⟨htiles, ?_, ?_, ?_, ?_⟩
  · intro l hl
    obtain ⟨k, hk, rfl⟩ := List.mem_map.mp hl
    exact line_in_block s table ⟨s.top, startTime, 0⟩ blocks k hk
  · intro b hb hlt
    obtain ⟨l, hl, hbl⟩ := block_has_last_line s table ⟨s.top, startTime, 0⟩ blocks b hb hlt
    exact ⟨_, List.mem_map_of_mem hl, hbl⟩
  · obtain ⟨order, hltr, hperm, hslice, hkeeps⟩ := hset.exists_order
    exact ⟨order, hltr, hperm, fun l hl => hslice l.span (List.mem_map_of_mem hl), hkeeps⟩
  · intro gs hgs
    have hfits : ∀ l ∈ (s.layout table startTime blocks).lines, l.span.fits gs.length = true := by
      intro l hl
      rw [hgs]
      exact htiles.fits (List.mem_map_of_mem hl)
    exact ⟨hfits, slices_in_bounds hfits⟩

end Layout

end Typeset
