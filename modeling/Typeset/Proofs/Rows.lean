import Typeset.Proofs.Paragraphs

/-!
# A layout row by row

The lines of a layout cut its glyphs into rows, and what is said of each row and its source survives
the passes over the joined buffer: alignment takes the rows one by one, and numbering keeps them.
-/

namespace Typeset

open Glyph

variable {α τ β γ δ : Type}

/-- A source `src` set in rows that stand at the given spans of `hs`, each related to its part of
the source. -/
def RowsAt (Q : List β → List γ → Prop) (start : ℕ) (src : List β) (hs : List γ)
    (spans : List Span) : Prop :=
  ∃ (srcs : List (List β)) (rows : List (List γ)), srcs.flatten = src ∧ rows.flatten = hs ∧
    spans = Span.ofLengths start (rows.map List.length) ∧
      List.Forall₂ (fun src row => src.length = row.length ∧ Q src row) srcs rows

section Rows

variable {Q : List β → List γ → Prop} {start : ℕ} {src src' : List β} {hs hs' : List γ}
  {spans spans' : List Span}

theorem RowsAt.length_eq (h : RowsAt Q start src hs spans) : src.length = hs.length := by
  obtain ⟨srcs, rows, rfl, rfl, _, hrows⟩ := h
  rw [List.length_flatten, List.length_flatten, map_length_congr (fun _ _ h => h.1) hrows]

/-- Read off the spans: each of them cuts a row out of the text and its part out of the source. -/
theorem RowsAt.slice (h : RowsAt Q 0 src hs spans) :
    ∀ s ∈ spans, Q (s.slice src) (s.slice hs) := by
  obtain ⟨srcs, rows, rfl, rfl, rfl, hrows⟩ := h
  have hlen : srcs.map List.length = rows.map List.length :=
    map_length_congr (fun _ _ h => h.1) hrows
  have hslices := Span.map_slice_ofLengths [] rows
  have hsources := Span.map_slice_ofLengths [] srcs
  rw [hlen] at hsources
  have hQ : List.Forall₂ Q srcs rows := hrows.imp fun _ _ h => h.2
  rw [← hslices, ← hsources, List.forall₂_map_left_iff, List.forall₂_map_right_iff] at hQ
  exact List.forall₂_same.mp hQ

/-- A pass that keeps the length of the text keeps its rows. -/
theorem RowsAt.pass {ks : List δ} {S : γ → δ → Prop} {Q' : List β → List δ → Prop}
    (h : RowsAt Q start src hs spans) (hks : List.Forall₂ S hs ks)
    (hQ : ∀ src row row', List.Forall₂ S row row' → Q src row → Q' src row') :
    RowsAt Q' start src ks spans := by
  obtain ⟨srcs, rows, rfl, rfl, rfl, hrows⟩ := h
  obtain ⟨rows', rfl, hrows'⟩ := forall₂_flatten_split hks.flip
  have hpass := hrows'.flip
  refine ⟨srcs, rows', rfl, rfl, ?_, forall₂_comp hrows hpass fun src row row' hrow hrow' => ?_⟩
  · rw [map_length_congr (fun _ _ h => List.Forall₂.length_eq h) hrows']
  · have hflip := List.Forall₂.flip hrow'
    exact ⟨hrow.1.trans hflip.length_eq, hQ src row row' hflip hrow.2⟩

end Rows

section Lines

variable {S : Glyph α τ → Glyph α τ → Prop}

/-- Rows with the splits of the lines of a text are lines themselves. -/
theorem lines_flatten (hS : ∀ g h, S g h → h.split = g.split) {gs : List (Glyph α τ)}
    {rows : List (List (Glyph α τ))} (h : List.Forall₂ (List.Forall₂ S) (lines gs) rows) :
    lines rows.flatten = rows := by
  have hflat := List.rel_flatten h
  rw [flatten_lines] at hflat
  have hsplit : rows.flatten.map split = gs.map split :=
    map_eq_of_forall₂ hflat fun _ _ _ hgh => hS _ _ hgh
  have hlen := map_length_congr (fun _ _ h => List.Forall₂.length_eq h) h
  rw [← map_length_lines_congr hsplit] at hlen
  exact List.eq_iff_flatten_eq.mpr ⟨flatten_lines _, hlen⟩

/-- A pass that keeps the splits keeps the lines. -/
theorem forall₂_lines (hS : ∀ g h, S g h → h.split = g.split) {gs hs : List (Glyph α τ)}
    (h : List.Forall₂ S gs hs) : List.Forall₂ (List.Forall₂ S) (lines gs) (lines hs) := by
  rw [← flatten_lines gs] at h
  obtain ⟨rows, rfl, hrows⟩ := forall₂_flatten_split h.flip
  have hlines : List.Forall₂ (List.Forall₂ S) (lines gs) rows :=
    hrows.flip.imp fun _ _ hrow => hrow.flip
  rwa [lines_flatten hS hlines]

theorem endsReplaced_congr (hS : ∀ g h, S g h → h.split = g.split) {row row' : List (Glyph α τ)}
    (h : List.Forall₂ S row row') : endsReplaced row' = endsReplaced row := by
  have hsplit : row'.map split = row.map split := map_eq_of_forall₂ h fun _ _ _ hgh => hS _ _ hgh
  have hends : ∀ l : List (Glyph α τ),
      endsReplaced l = ((l.map split).getLast?.map (· == .replace)).getD false := by
    intro l
    unfold endsReplaced
    rw [List.getLast?_map]
    cases l.getLast? <;> rfl
  rw [hends, hends, hsplit]

theorem forall₂_body (hS : ∀ g h, S g h → h.split = g.split) {row row' : List (Glyph α τ)}
    (h : List.Forall₂ S row row') : List.Forall₂ S (body row) (body row') := by
  unfold body
  rw [endsReplaced_congr hS h]
  split_ifs
  · rw [List.dropLast_eq_take, List.dropLast_eq_take, h.length_eq]
    exact List.forall₂_take _ h
  · exact h

end Lines

section Updates

variable {f : Line α τ → List γ → List γ} {rows : List (Line α τ)} {gs : List γ}

/-- Changing the lines of a buffer leaves what lies on none of them. -/
theorem getElem?_foldl_update (hf : ∀ l row, (f l row).length = row.length)
    (hfits : ∀ l ∈ rows, l.span.fits gs.length = true) {i : ℕ} (hi : ∀ l ∈ rows, i ∉ l.span) :
    (rows.foldl (fun gs l => l.span.update (f l) gs) gs)[i]? = gs[i]? := by
  induction rows generalizing gs with
  | nil => rfl
  | cons l rows ih =>
    have hl := hfits l (by simp)
    rw [List.foldl_cons, ih _ fun k hk => hi k (by simp [hk])]
    · exact Span.getElem?_update hl (hf l) (hi l (by simp))
    · intro k hk
      rw [Span.length_update hl (hf l)]
      exact hfits k (by simp [hk])

/-- Changing the lines of a buffer changes each of them once. -/
theorem slice_foldl_update (hf : ∀ l row, (f l row).length = row.length)
    (hfits : ∀ l ∈ rows, l.span.fits gs.length = true)
    (hdisjoint : rows.Pairwise fun k l => k.span.Disjoint l.span) : ∀ l ∈ rows,
      l.span.slice (rows.foldl (fun gs l => l.span.update (f l) gs) gs) =
        f l (l.span.slice gs) := by
  induction rows generalizing gs with
  | nil => simp
  | cons l rows ih =>
    have hl := hfits l (by simp)
    obtain ⟨hfirst, hrest⟩ := List.pairwise_cons.mp hdisjoint
    have hfits' : ∀ k ∈ rows, k.span.fits (l.span.update (f l) gs).length = true := by
      intro k hk
      rw [Span.length_update hl (hf l)]
      exact hfits k (by simp [hk])
    intro k hk
    rw [List.foldl_cons]
    rcases List.mem_cons.mp hk with rfl | hk
    · -- the lines behind do not reach into the first
      rw [← Span.slice_update hl (hf k)]
      apply Span.slice_congr
      intro i hi
      exact getElem?_foldl_update hf hfits' fun m hm => hfirst m hm i hi
    · -- changing the first leaves them as they were
      rw [ih hfits' hrest k hk]
      congr 1
      apply Span.slice_congr
      intro i hi
      exact Span.getElem?_update hl (hf l) fun hil => hfirst k hk i hil hi

end Updates

section Buffer

theorem foldl_update {f : Line α τ → List γ → List γ} (hf : ∀ l row, (f l row).length = row.length)
    {rows : List (Line α τ)} {pieces : List (List γ)} (before : List γ)
    (h : rows.map Line.span = Span.ofLengths before.length (pieces.map List.length)) :
    rows.foldl (fun gs l => l.span.update (f l) gs) (before ++ pieces.flatten) =
      before ++ (List.zipWith f rows pieces).flatten := by
  induction pieces generalizing rows before with
  | nil =>
    rw [List.map_nil, Span.ofLengths_nil, List.map_eq_nil_iff] at h
    rw [h]
    rfl
  | cons piece pieces ih =>
    rw [List.map_cons, Span.ofLengths_cons] at h
    obtain ⟨l, rows, rfl, hl, hrows⟩ := List.map_eq_cons_iff.mp h
    have hupdate : l.span.update (f l) (before ++ (piece ++ pieces.flatten)) =
        before ++ f l piece ++ pieces.flatten := by
      rw [hl]
      simp [Span.update, Span.slice, ← List.drop_drop]
    have hnext := @ih rows (before ++ f l piece)
      (by rw [hrows, List.length_append, hf])
    rw [List.foldl_cons, List.flatten_cons, hupdate, hnext, List.zipWith_cons_cons,
      List.flatten_cons, List.append_assoc]

theorem forall₂_zipWith {P P' : β → γ → Prop} {f : δ → γ → γ} {l : List β} {m : List γ}
    {k : List δ} (h : List.Forall₂ P l m) (hlen : k.length = m.length)
    (hf : ∀ d b, ∀ c ∈ m, P b c → P' b (f d c)) : List.Forall₂ P' l (List.zipWith f k m) := by
  induction h generalizing k with
  | nil =>
    rw [List.zipWith_nil_right]
    exact .nil
  | cons hab _ ih =>
    obtain ⟨d, k, rfl⟩ := List.exists_cons_of_length_eq_add_one hlen
    rw [List.zipWith_cons_cons]
    exact .cons (hf d _ _ (by simp) hab)
      (ih (Nat.succ.inj hlen) fun d b c hc => hf d b c (by simp [hc]))

variable [Scalar α] {Q : List β → List (Glyph α τ) → Prop} {src : List β}

theorem length_alignLine (a : Alignment α) (target : α) (ends : Bool) (row : List (Glyph α τ)) :
    (alignLine a target ends row).length = row.length :=
  (moved_alignLine a target ends row).length_eq.symm

theorem alignLines_flatten (a : Alignment α) (target : α) (hleft : a.isLeft = false)
    {rows : List (Line α τ)} {pieces : List (List (Glyph α τ))}
    (h : rows.map Line.span = Span.ofLengths 0 (pieces.map List.length)) :
    alignLines a target rows pieces.flatten =
      (List.zipWith (fun l => alignLine a target l.endsParagraph) rows pieces).flatten := by
  rw [alignLines, hleft, if_neg Bool.false_ne_true]
  exact foldl_update (fun l => length_alignLine a target l.endsParagraph) [] h

/-- Aligning a text aligns its rows. -/
theorem RowsAt.align {rows : List (Line α τ)} {gs : List (Glyph α τ)}
    (h : RowsAt Q 0 src gs (rows.map Line.span)) (a : Alignment α) (target : α)
    (hQ : ∀ ends src row, (∀ g ∈ row, g ∈ gs) → Q src row → Q src (alignLine a target ends row)) :
    RowsAt Q 0 src (alignLines a target rows gs) (rows.map Line.span) := by
  cases hleft : a.isLeft with
  | true => rwa [alignLines, if_pos hleft]
  | false =>
    obtain ⟨srcs, pieces, rfl, rfl, hspans, hrows⟩ := h
    have hcount : rows.length = pieces.length := by
      rw [← List.length_map Line.span, hspans, ← List.length_map List.length]
      exact Span.length_ofLengths ..
    have haligned : List.Forall₂ (fun src row => src.length = row.length ∧ Q src row) srcs
        (List.zipWith (fun l => alignLine a target l.endsParagraph) rows pieces) :=
      forall₂_zipWith hrows hcount fun l src row hrow hsrc =>
        ⟨hsrc.1.trans (length_alignLine a target l.endsParagraph row).symm,
          hQ l.endsParagraph src row (fun g hg => List.mem_flatten_of_mem hrow hg) hsrc.2⟩
    refine ⟨srcs, _, rfl, (alignLines_flatten a target hleft hspans).symm, ?_, haligned⟩
    rw [hspans, ← map_length_congr (fun _ _ h => h.1) hrows,
      ← map_length_congr (fun _ _ h => h.1) haligned]

/-- Each line of an aligned text is the line of the text, aligned. -/
theorem slice_alignLines (a : Alignment α) (target : α) (hleft : a.isLeft = false)
    {rows : List (Line α τ)} {gs : List (Glyph α τ)}
    (hfits : ∀ l ∈ rows, l.span.fits gs.length = true)
    (hdisjoint : rows.Pairwise fun k l => k.span.Disjoint l.span) : ∀ l ∈ rows,
      l.span.slice (alignLines a target rows gs) =
        alignLine a target l.endsParagraph (l.span.slice gs) := by
  rw [alignLines, hleft, if_neg Bool.false_ne_true]
  exact slice_foldl_update (fun l => length_alignLine a target l.endsParagraph) hfits hdisjoint

theorem slice_alignLines_of_tiles (a : Alignment α) (target : α) (hleft : a.isLeft = false)
    {rows : List (Line α τ)} {gs : List (Glyph α τ)}
    (htiles : Span.Tiles 0 gs.length (rows.map Line.span)) : ∀ l ∈ rows,
      l.span.slice (alignLines a target rows gs) =
        alignLine a target l.endsParagraph (l.span.slice gs) :=
  slice_alignLines a target hleft (fun _ hl => htiles.fits (List.mem_map_of_mem hl))
    (List.pairwise_map.mp htiles.pairwise_disjoint)

/-- What lies on no line alignment leaves alone. -/
theorem getElem?_alignLines (a : Alignment α) (target : α) {rows : List (Line α τ)}
    {gs : List (Glyph α τ)} (hfits : ∀ l ∈ rows, l.span.fits gs.length = true) {i : ℕ}
    (hi : ∀ l ∈ rows, i ∉ l.span) : (alignLines a target rows gs)[i]? = gs[i]? := by
  unfold alignLines
  split_ifs
  · rfl
  · exact getElem?_foldl_update (fun l => length_alignLine a target l.endsParagraph) hfits hi

end Buffer

section Paragraphs

variable [Scalar α] [Scalar τ] {s : Style α τ} {table : ClassTable}

/-- The spans of a paragraph are those of the lines that its finished glyphs make. -/
theorem span_finished (start : Style.Start α τ) (gs : List (Glyph α τ)) :
    (s.layParagraph table start gs).2.1.map Line.span =
      Span.ofLengths start.index ((lines (s.layParagraph table start gs).2.2).map List.length) := by
  have hsplit : (s.layParagraph table start gs).2.2.map split =
      (placeAcross s.left s.firstIndent s.restIndent
        (s.orderLines (s.breakLines table gs))).map split :=
    map_eq_of_forall₂ (stays_layParagraph s table start gs) fun _ _ _ h => h.split
  rw [map_split_placeAcross] at hsplit
  rw [span_layParagraph, lineSpans, Span.shift_ofLengths, Nat.zero_add,
    map_length_lines_congr hsplit]

/-- The lines of paragraphs set one behind the other. -/
def Style.rows (s : Style α τ) (table : ClassTable) (start : Style.Start α τ)
    (blocks : List (List (Glyph α τ))) : List (List (Glyph α τ)) :=
  (sweep (s.layParagraph table) start blocks).2.flatMap fun p => lines p.2

theorem flatten_rows (start : Style.Start α τ) (blocks : List (List (Glyph α τ))) :
    (s.rows table start blocks).flatten =
      (sweep (s.layParagraph table) start blocks).2.flatMap Prod.snd := by
  simp [Style.rows, List.flatMap_def, List.flatten_flatten, Function.comp_def]

theorem span_rows (start : Style.Start α τ) (blocks : List (List (Glyph α τ))) :
    ((sweep (s.layParagraph table) start blocks).2.flatMap Prod.fst).map Line.span =
      Span.ofLengths start.index ((s.rows table start blocks).map List.length) := by
  induction blocks generalizing start with
  | nil => rfl
  | cons gs blocks ih =>
    have hrest := ih (s.layParagraph table start gs).1
    have hlen := (setAt_layParagraph s table start gs).length_eq
    have hlines := List.length_flatten (L := lines (s.layParagraph table start gs).2.2)
    rw [flatten_lines, hlen] at hlines
    rw [index_layParagraph, hlines] at hrest
    simp only [Style.rows, sweep_cons, List.flatMap_cons, List.map_append] at hrest ⊢
    rw [Span.ofLengths_append, hrest, span_finished]

/-- The spans of a text cut its rows out of it. -/
theorem map_slice_rows (y : α) (time : τ) (blocks : List (List (Glyph α τ))) :
    ((sweep (s.layParagraph table) ⟨y, time, 0⟩ blocks).2.flatMap Prod.fst).map
        (fun l => l.span.slice
          ((sweep (s.layParagraph table) ⟨y, time, 0⟩ blocks).2.flatMap Prod.snd)) =
      s.rows table ⟨y, time, 0⟩ blocks := by
  have hslices := Span.map_slice_ofLengths [] (s.rows table ⟨y, time, 0⟩ blocks)
  have hspans : _ = Span.ofLengths 0 ((s.rows table ⟨y, time, 0⟩ blocks).map List.length) :=
    span_rows ⟨y, time, 0⟩ blocks
  rw [flatten_rows, List.length_nil, ← hspans, List.map_map] at hslices
  exact hslices

/-- The glyphs of a row belong together. -/
theorem joined_rows (start : Style.Start α τ) (blocks : List (List (Glyph α τ))) :
    ∀ row ∈ s.rows table start blocks, row.IsChain fun g h => joins g h = true := by
  intro row hrow
  obtain ⟨p, _, hp⟩ := List.mem_flatMap.mp hrow
  exact List.isChain_of_mem_splitBy hp

/-- Rows of the paragraphs are rows of the text. -/
theorem rowsAt_sweep {Q : List β → List (Glyph α τ) → Prop} {B : List β → List (Glyph α τ) → Prop}
    (hQ : ∀ src row, Q src row → src.length = row.length)
    (hB : ∀ start src gs, B src gs → ∃ srcs, srcs.flatten = src ∧
      List.Forall₂ Q srcs (lines (s.layParagraph table start gs).2.2))
    {srcs : List (List β)} {blocks : List (List (Glyph α τ))} (h : List.Forall₂ B srcs blocks)
    (start : Style.Start α τ) :
    RowsAt Q start.index srcs.flatten
      ((sweep (s.layParagraph table) start blocks).2.flatMap Prod.snd)
      (((sweep (s.layParagraph table) start blocks).2.flatMap Prod.fst).map Line.span) := by
  have hrows : ∃ pieces : List (List β), pieces.flatten = srcs.flatten ∧
      List.Forall₂ Q pieces (s.rows table start blocks) := by
    induction h generalizing start with
    | nil => exact ⟨[], rfl, .nil⟩
    | @cons src gs srcs blocks hgs _ ih =>
      obtain ⟨pieces, rfl, hpieces⟩ := hB start src gs hgs
      obtain ⟨later, hflat, hlater⟩ := ih (s.layParagraph table start gs).1
      refine ⟨pieces ++ later, by simp [hflat], ?_⟩
      simp only [Style.rows, sweep_cons, List.flatMap_cons]
      exact List.rel_append hpieces hlater
  obtain ⟨pieces, hflat, hpieces⟩ := hrows
  exact ⟨pieces, _, hflat, flatten_rows start blocks, span_rows start blocks,
    hpieces.imp fun src row h => ⟨hQ src row h, h⟩⟩

end Paragraphs

end Typeset
