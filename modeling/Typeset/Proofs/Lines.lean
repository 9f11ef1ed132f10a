import Mathlib.Data.List.SplitBy
import Mathlib.Tactic
import Typeset.Line

/-!
# Where the lines stand

The spans of the lines tile the text. A span is one of them exactly when the breaks cut the text at
both of its ends and nowhere between, so every statement about lines can be read off the breaks.
-/

namespace Typeset

namespace Span

variable {β : Type}

/-- The spans cover the positions from one to another in order, and none of them is empty. -/
def Tiles : ℕ → ℕ → List Span → Prop
  | start, stop, [] => start = stop
  | start, stop, s :: rest => s.start = start ∧ s.start < s.stop ∧ Tiles s.stop stop rest

theorem Tiles.le {start stop : ℕ} {spans : List Span} (h : Tiles start stop spans) :
    start ≤ stop := by
  induction spans generalizing start with
  | nil => exact Nat.le_of_eq h
  | cons s rest ih =>
    obtain ⟨hs, hlt, hrest⟩ := h
    have := ih hrest
    omega

theorem Tiles.bounds {start stop : ℕ} {spans : List Span} (h : Tiles start stop spans) {s : Span}
    (hs : s ∈ spans) : start ≤ s.start ∧ s.start < s.stop ∧ s.stop ≤ stop := by
  induction spans generalizing start with
  | nil => simp at hs
  | cons r rest ih =>
    obtain ⟨hr, hlt, hrest⟩ := h
    rcases List.mem_cons.mp hs with rfl | hs
    · exact ⟨hr.ge, hlt, hrest.le⟩
    · have := ih hrest hs
      omega

theorem Tiles.fits {start stop : ℕ} {spans : List Span} (h : Tiles start stop spans) {s : Span}
    (hs : s ∈ spans) : s.fits stop = true := by
  obtain ⟨_, hlt, hle⟩ := h.bounds hs
  simp only [Span.fits, Bool.and_eq_true, decide_eq_true_eq]
  omega

theorem Tiles.exists_mem {start stop : ℕ} {spans : List Span} (h : Tiles start stop spans) {i : ℕ}
    (hi : start ≤ i) (hi' : i < stop) : ∃ s ∈ spans, s.start ≤ i ∧ i < s.stop := by
  induction spans generalizing start with
  | nil =>
    have : start = stop := h
    omega
  | cons r rest ih =>
    obtain ⟨hr, hlt, hrest⟩ := h
    by_cases hir : i < r.stop
    · exact ⟨r, by simp, by omega, hir⟩
    · obtain ⟨s, hs, hsi⟩ := ih hrest (by omega)
      exact ⟨s, by simp [hs], hsi⟩

theorem tiles_append {start stop : ℕ} {l m : List Span} :
    Tiles start stop (l ++ m) ↔ ∃ mid, Tiles start mid l ∧ Tiles mid stop m := by
  induction l generalizing start with
  | nil => exact ⟨fun h => ⟨start, rfl, h⟩, fun ⟨_, hl, hm⟩ => by rwa [hl]⟩
  | cons s l ih =>
    constructor
    · rintro ⟨hs, hlt, h⟩
      obtain ⟨mid, hl, hm⟩ := ih.mp h
      exact ⟨mid, ⟨hs, hlt, hl⟩, hm⟩
    · rintro ⟨mid, ⟨hs, hlt, hl⟩, hm⟩
      exact ⟨hs, hlt, ih.mpr ⟨mid, hl, hm⟩⟩

@[simp] theorem ofLengths_nil (start : ℕ) : ofLengths start [] = [] := rfl

theorem length_ofLengths (start : ℕ) (lengths : List ℕ) :
    (ofLengths start lengths).length = lengths.length := length_sweep ..

theorem ofLengths_append (start : ℕ) (l m : List ℕ) :
    ofLengths start (l ++ m) = ofLengths start l ++ ofLengths (start + l.sum) m := by
  induction l generalizing start with
  | nil => simp
  | cons n l ih => simp [ofLengths_cons, ih, Nat.add_assoc]

theorem shift_ofLengths (n start : ℕ) (lengths : List ℕ) :
    (ofLengths start lengths).map (shift n) = ofLengths (start + n) lengths := by
  induction lengths generalizing start with
  | nil => rfl
  | cons k lengths ih => simp [ofLengths_cons, ih, shift, Nat.add_right_comm]

theorem tiles_ofLengths (start : ℕ) {lengths : List ℕ} (h : ∀ n ∈ lengths, 0 < n) :
    Tiles start (start + lengths.sum) (ofLengths start lengths) := by
  induction lengths generalizing start with
  | nil => rfl
  | cons n lengths ih =>
    rw [ofLengths_cons, List.sum_cons, ← Nat.add_assoc]
    exact ⟨rfl, Nat.lt_add_of_pos_right (h n (by simp)),
      ih (start + n) fun k hk => h k (by simp [hk])⟩

theorem mem_ofLengths {start : ℕ} {lengths : List ℕ} {s : Span} (h : s ∈ ofLengths start lengths) :
    ∃ l n m, lengths = l ++ n :: m ∧ s = ⟨start + l.sum, start + l.sum + n⟩ := by
  induction lengths generalizing start with
  | nil => simp at h
  | cons k lengths ih =>
    rw [ofLengths_cons] at h
    rcases List.mem_cons.mp h with rfl | h
    · exact ⟨[], k, lengths, rfl, by simp⟩
    · obtain ⟨l, n, m, rfl, rfl⟩ := ih h
      exact ⟨k :: l, n, m, rfl, by simp [Nat.add_assoc]⟩

/-- The spans of consecutive pieces cut the pieces out of the text they make up. -/
theorem map_slice_ofLengths (before : List β) (pieces : List (List β)) :
    (ofLengths before.length (pieces.map List.length)).map
      (fun s => s.slice (before ++ pieces.flatten)) = pieces := by
  induction pieces generalizing before with
  | nil => rfl
  | cons p pieces ih =>
    have h := ih (before ++ p)
    simp only [List.length_append, List.append_assoc] at h
    have hp : (⟨before.length, before.length + p.length⟩ : Span).slice
        (before ++ (p ++ pieces.flatten)) = p := by simp [slice]
    simp only [List.map_cons, ofLengths_cons, List.flatten_cons, hp, h]

theorem slice_append_left {s : Span} {l : List β} (h : s.stop ≤ l.length) (m : List β) :
    s.slice (l ++ m) = s.slice l := by
  rcases Nat.le_total s.start s.stop with hle | hle
  · rw [slice, slice, List.drop_append_of_le_length (hle.trans h), List.take_append_of_le_length]
    rw [List.length_drop]
    omega
  · rw [slice, slice, Nat.sub_eq_zero_of_le hle, List.take_zero, List.take_zero]

theorem slice_shift (s : Span) (l m : List β) : (s.shift l.length).slice (l ++ m) = s.slice m := by
  rw [slice, slice, shift, Nat.add_sub_add_right, Nat.add_comm s.start, ← List.drop_drop,
    List.drop_left]

/-- A text is what comes before a span, what the span cuts out, and what comes behind it. -/
theorem take_append_slice_append_drop {s : Span} (h : s.start ≤ s.stop) (l : List β) :
    l.take s.start ++ (s.slice l ++ l.drop s.stop) = l := by
  have hdrop : (l.drop s.start).drop (s.stop - s.start) = l.drop s.stop := by
    rw [List.drop_drop, Nat.add_sub_cancel' h]
  rw [slice, ← hdrop, List.take_append_drop, List.take_append_drop]

theorem slice_append_mid {s : Span} {before piece : List β} (hstart : before.length = s.start)
    (hpiece : piece.length = s.stop - s.start) (behind : List β) :
    s.slice (before ++ (piece ++ behind)) = piece := by
  rw [slice, ← hpiece, ← hstart, List.drop_left, List.take_left]

theorem mem_slice {s : Span} {l : List β} {a : β} :
    a ∈ s.slice l ↔ ∃ i, s.start ≤ i ∧ i < s.stop ∧ l[i]? = some a := by
  rw [slice, List.mem_iff_getElem?]
  simp only [List.getElem?_take, List.getElem?_drop]
  constructor
  · rintro ⟨i, hi⟩
    split_ifs at hi with hlt
    exact ⟨s.start + i, Nat.le_add_right .., by omega, hi⟩
  · rintro ⟨i, hstart, hstop, hi⟩
    refine ⟨i - s.start, ?_⟩
    rw [if_pos (by omega), Nat.add_sub_cancel' hstart, hi]

theorem getElem?_slice {s : Span} {i : ℕ} (hstart : s.start ≤ i) (hstop : i < s.stop)
    (l : List β) : (s.slice l)[i - s.start]? = l[i]? := by
  rw [slice, List.getElem?_take, if_pos (by omega), List.getElem?_drop,
    Nat.add_sub_cancel' hstart]

/-- A span of a part of a text is a span of the text. -/
theorem slice_slice {s u : Span} (h : s.stop ≤ u.stop - u.start) (l : List β) :
    s.slice (u.slice l) = (s.shift u.start).slice l := by
  simp only [slice, shift, List.drop_take, List.take_take, List.drop_drop]
  congr 1
  · omega
  · rw [Nat.add_comm]

theorem slice_within {s u : Span} (hstart : u.start ≤ s.start) (hle : s.start ≤ s.stop)
    (hstop : s.stop ≤ u.stop) (l : List β) :
    s.slice l = (⟨s.start - u.start, s.stop - u.start⟩ : Span).slice (u.slice l) := by
  rw [slice_slice (Nat.sub_le_sub_right hstop _), shift, Nat.sub_add_cancel hstart,
    Nat.sub_add_cancel (hstart.trans hle)]

theorem slice_map {γ : Type} (s : Span) (f : β → γ) (l : List β) :
    s.slice (l.map f) = (s.slice l).map f := by
  rw [slice, slice, ← List.map_drop, ← List.map_take]

section Update

variable {s t : Span} {l m : List β} {f : List β → List β} {i : ℕ}

/-- A position lies in the span. -/
instance : Membership ℕ Span := ⟨fun s i => s.start ≤ i ∧ i < s.stop⟩

/-- No position lies in both spans. -/
def Disjoint (s t : Span) : Prop := ∀ i ∈ s, i ∉ t

theorem slice_congr (h : ∀ i ∈ s, l[i]? = m[i]?) : s.slice l = s.slice m := by
  apply List.ext_getElem?
  intro i
  simp only [slice, List.getElem?_take, List.getElem?_drop]
  split_ifs with hi
  · exact h (s.start + i) ⟨by omega, by omega⟩
  · rfl

theorem slice_update (hs : s.fits l.length = true) (hf : ∀ row, (f row).length = row.length) :
    s.slice (s.update f l) = f (s.slice l) := by
  have hlength := s.length_slice l hs
  simp only [fits, Bool.and_eq_true, decide_eq_true_eq] at hs
  apply slice_append_mid
  · simp
    omega
  · rw [hf, hlength]

theorem length_update (hs : s.fits l.length = true) (hf : ∀ row, (f row).length = row.length) :
    (s.update f l).length = l.length := by
  have hlength := s.length_slice l hs
  simp only [fits, Bool.and_eq_true, decide_eq_true_eq] at hs
  simp [update, hf, hlength]
  omega

theorem getElem?_update (hs : s.fits l.length = true) (hf : ∀ row, (f row).length = row.length)
    (hi : i ∉ s) : (s.update f l)[i]? = l[i]? := by
  have hlength := s.length_slice l hs
  simp only [fits, Bool.and_eq_true, decide_eq_true_eq] at hs
  rcases Nat.lt_or_ge i s.start with hlt | hge
  · rw [update, List.getElem?_append_left (by simp; omega), List.getElem?_take, if_pos hlt]
  · have hstop : s.stop ≤ i := not_lt.mp fun hlt => hi ⟨hge, hlt⟩
    rw [update, ← List.append_assoc, List.getElem?_append_right (by simp [hf, hlength]; omega),
      List.getElem?_drop]
    congr 1
    simp [hf, hlength]
    omega

theorem Tiles.pairwise_disjoint {start stop : ℕ} {spans : List Span} (h : Tiles start stop spans) :
    spans.Pairwise Disjoint := by
  induction spans generalizing start with
  | nil => exact .nil
  | cons s spans ih =>
    obtain ⟨_, _, hrest⟩ := h
    refine .cons (fun t ht i hi hit => ?_) (ih hrest)
    exact absurd (hi.2.trans_le (hrest.bounds ht).1) (not_lt.mpr hit.1)

end Update

end Span

namespace Glyph

variable {α τ : Type} {gs : List (Glyph α τ)} {b : ℕ}

/-- The breaks leave the glyph before a position and the one at it on different lines. -/
def IsCut (gs : List (Glyph α τ)) (b : ℕ) : Prop :=
  ∀ g h, 0 < b → gs[b - 1]? = some g → gs[b]? = some h → joins g h = false

theorem isCut_zero (gs : List (Glyph α τ)) : IsCut gs 0 := fun _ _ h => absurd h (lt_irrefl 0)

theorem isCut_length (gs : List (Glyph α τ)) : IsCut gs gs.length := by
  intro g h _ _ hh
  simp at hh

theorem isCut_succ_iff {g h : Glyph α τ} (hg : gs[b]? = some g) (hh : gs[b + 1]? = some h) :
    IsCut gs (b + 1) ↔ g.split = .replace ∨ h.split = .before := by
  have joined : IsCut gs (b + 1) ↔ joins g h = false := by
    refine ⟨fun hc => hc g h (by omega) hg hh, fun hj g' h' _ hg' hh' => ?_⟩
    rw [Nat.add_sub_cancel, hg] at hg'
    rw [hh] at hh'
    rwa [← Option.some.inj hg', ← Option.some.inj hh']
  rw [joined]
  cases hs : g.split <;> cases ht : h.split <;> simp [joins, hs, ht]

theorem map_splitBy {β γ : Type} (f : β → γ) (r : γ → γ → Bool) (l : List β) :
    (l.splitBy fun a b => r (f a) (f b)).map (List.map f) = (l.map f).splitBy r := by
  symm
  rw [List.splitBy_eq_iff]
  refine ⟨by rw [← List.map_flatten, List.flatten_splitBy], ?_, ?_, ?_⟩
  · intro h
    obtain ⟨m, hm, hnil⟩ := List.mem_map.mp h
    exact List.ne_nil_of_mem_splitBy hm (List.map_eq_nil_iff.mp hnil)
  · intro m hm
    obtain ⟨k, hk, rfl⟩ := List.mem_map.mp hm
    exact (List.isChain_map f).mpr (List.isChain_of_mem_splitBy hk)
  · refine (List.isChain_map _).mpr ((List.isChain_getLast_head_splitBy _ l).imp ?_)
    rintro a b ⟨ha, hb, hab⟩
    exact ⟨by simpa using ha, by simpa using hb, by simpa using hab⟩

/-- The pieces of a text come apart where two neighbours do not belong together. -/
theorem splitBy_parts {β : Type} {r : β → β → Bool} {l : List β} {a b : List (List β)}
    (h : l.splitBy r = a ++ b) {x y : β} (hx : a.flatten.getLast? = some x)
    (hy : b.flatten.head? = some y) : r x y = false := by
  have hne : ∀ piece ∈ a ++ b, piece ≠ [] := fun piece hpiece =>
    List.ne_nil_of_mem_splitBy (h ▸ hpiece)
  have ha : a ≠ [] := by
    rintro rfl
    simp at hx
  have hb : b ≠ [] := by
    rintro rfl
    simp at hy
  have hlast : (a.getLast ha).getLast (hne _ (by simp)) = x := by
    rw [List.getLast_getLast_eq_getLast_flatten]
    exact Option.some.inj ((List.getLast?_eq_some_getLast _).symm.trans hx)
  have hhead : (b.head hb).head (hne _ (by simp)) = y := by
    rw [List.head_head_eq_head_flatten]
    exact Option.some.inj ((List.head?_eq_some_head _).symm.trans hy)
  have hchain := List.isChain_getLast_head_splitBy r l
  rw [h, List.isChain_append] at hchain
  obtain ⟨_, _, hr⟩ := hchain.2.2 _ (List.getLast_mem_getLast? ha) _ (List.head_mem_head? hb)
  rwa [hlast, hhead] at hr

/-- Where the lines stand depends on the splits alone. -/
theorem map_length_lines_congr {l m : List (Glyph α τ)} (h : l.map split = m.map split) :
    (lines l).map List.length = (lines m).map List.length := by
  have hlines : ∀ k : List (Glyph α τ), (lines k).map List.length =
      ((k.map split).splitBy fun a b => a != .replace && b != .before).map List.length := by
    intro k
    rw [← map_splitBy, List.map_map]
    exact List.map_congr_left fun row _ => by simp
  rw [hlines, hlines, h]

@[simp] theorem flatten_lines (gs : List (Glyph α τ)) : (lines gs).flatten = gs :=
  List.flatten_splitBy joins gs

/-- A glyph of a text is one of a line of it. -/
theorem mem_iff_exists_line {g : Glyph α τ} : g ∈ gs ↔ ∃ line ∈ lines gs, g ∈ line := by
  conv_lhs => rw [← flatten_lines gs]
  exact List.mem_flatten

theorem length_pos_of_mem_lines {line : List (Glyph α τ)} (h : line ∈ lines gs) :
    0 < line.length := List.length_pos_iff.mpr (List.ne_nil_of_mem_splitBy h)

theorem isCut_of_lines_eq_append {l m : List (List (Glyph α τ))} (h : lines gs = l ++ m) :
    IsCut gs l.flatten.length := by
  have hgs : gs = l.flatten ++ m.flatten := by
    rw [← List.flatten_append, ← h, flatten_lines]
  intro g g' hpos hg hg'
  rw [hgs, List.getElem?_append_left (by omega)] at hg
  rw [hgs, List.getElem?_append_right le_rfl, Nat.sub_self] at hg'
  refine splitBy_parts h ?_ ?_
  · rw [List.getLast?_eq_getElem?, hg]
  · rw [List.head?_eq_getElem?, hg']

theorem not_isCut_of_lines_eq_append {l m : List (List (Glyph α τ))} {row : List (Glyph α τ)}
    (h : lines gs = l ++ row :: m) (hb : l.flatten.length < b)
    (hb' : b < l.flatten.length + row.length) : ¬ IsCut gs b := by
  have hgs : gs = l.flatten ++ (row ++ m.flatten) := by
    rw [← List.flatten_cons, ← List.flatten_append, ← h, flatten_lines]
  have hrow : row ∈ lines gs := by simp [h]
  have hchain : row.IsChain fun x y => joins x y = true := List.isChain_of_mem_splitBy hrow
  obtain ⟨i, rfl⟩ : ∃ i, b = l.flatten.length + (i + 1) := ⟨b - l.flatten.length - 1, by omega⟩
  have hat : ∀ j (hj : j < row.length), gs[l.flatten.length + j]? = some row[j] := by
    intro j hj
    rw [hgs, List.getElem?_append_right (by omega), Nat.add_sub_cancel_left,
      List.getElem?_append_left hj, List.getElem?_eq_getElem hj]
  intro hc
  have hj := hc row[i] row[i + 1] (by omega) (hat i (by omega)) (hat (i + 1) (by omega))
  have := List.isChain_iff_getElem.mp hchain i (by omega)
  simp [this] at hj

theorem tiles_lineSpans (gs : List (Glyph α τ)) : Span.Tiles 0 gs.length (lineSpans gs) := by
  have hpos : ∀ n ∈ (lines gs).map List.length, 0 < n := by
    intro n hn
    obtain ⟨line, hline, rfl⟩ := List.mem_map.mp hn
    exact length_pos_of_mem_lines hline
  have h := Span.tiles_ofLengths 0 hpos
  rwa [Nat.zero_add, ← List.length_flatten, flatten_lines] at h

/-- The spans of the lines cut the lines out. -/
theorem map_slice_lineSpans (gs : List (Glyph α τ)) :
    (lineSpans gs).map (fun r => r.slice gs) = lines gs := by
  have h := Span.map_slice_ofLengths [] (lines gs)
  rwa [List.nil_append, flatten_lines] at h

/-- The line that a span cuts out, among the lines before and behind it. -/
theorem exists_line_of_mem_lineSpans {s : Span} (h : s ∈ lineSpans gs) :
    ∃ before row behind, lines gs = before ++ row :: behind ∧
      s = ⟨before.flatten.length, before.flatten.length + row.length⟩ := by
  obtain ⟨l, n, m, hl, rfl⟩ := Span.mem_ofLengths h
  obtain ⟨before, rest, hlines, rfl, hrest⟩ := List.map_eq_append_iff.mp hl
  obtain ⟨row, behind, rfl, rfl, rfl⟩ := List.map_eq_cons_iff.mp hrest
  exact ⟨before, row, behind, hlines, by rw [Nat.zero_add, ← List.length_flatten]⟩

theorem slice_of_lines_eq_append {l m : List (List (Glyph α τ))} {row : List (Glyph α τ)}
    (h : lines gs = l ++ row :: m) :
    (⟨l.flatten.length, l.flatten.length + row.length⟩ : Span).slice gs = row := by
  have hgs : gs = l.flatten ++ (row ++ m.flatten) := by
    rw [← List.flatten_cons, ← List.flatten_append, ← h, flatten_lines]
  conv_lhs => rw [hgs]
  exact Span.slice_append_mid rfl (Nat.add_sub_cancel_left ..).symm _

theorem isCut_ends_of_mem_lineSpans {s : Span} (h : s ∈ lineSpans gs) :
    IsCut gs s.start ∧ IsCut gs s.stop ∧ ∀ b, s.start < b → b < s.stop → ¬ IsCut gs b := by
  obtain ⟨before, row, behind, hlines, rfl⟩ := exists_line_of_mem_lineSpans h
  have hstop : IsCut gs (before ++ [row]).flatten.length :=
    isCut_of_lines_eq_append (m := behind) (by simp [hlines])
  rw [List.flatten_append, List.flatten_singleton, List.length_append] at hstop
  exact ⟨isCut_of_lines_eq_append hlines, hstop,
    fun b hb hb' => not_isCut_of_lines_eq_append hlines hb hb'⟩

theorem mem_lineSpans {s : Span} : s ∈ lineSpans gs ↔
    s.start < s.stop ∧ s.stop ≤ gs.length ∧ IsCut gs s.start ∧ IsCut gs s.stop ∧
      ∀ b, s.start < b → b < s.stop → ¬ IsCut gs b := by
  constructor
  · intro h
    obtain ⟨_, hlt, hle⟩ := (tiles_lineSpans gs).bounds h
    exact ⟨hlt, hle, isCut_ends_of_mem_lineSpans h⟩
  · rintro ⟨hlt, hle, hstart, hstop, hbetween⟩
    obtain ⟨r, hr, hrs, hsr⟩ := (tiles_lineSpans gs).exists_mem (Nat.zero_le s.start) (by omega)
    obtain ⟨hrstart, hrstop, hrbetween⟩ := isCut_ends_of_mem_lineSpans hr
    have hs : r.start = s.start := by
      by_contra hne
      exact hrbetween s.start (by omega) hsr hstart
    have ht : r.stop = s.stop := by
      rcases Nat.lt_trichotomy r.stop s.stop with hlt' | heq | hgt
      · exact absurd hrstop (hbetween _ (by omega) hlt')
      · exact heq
      · exact absurd hstop (hrbetween _ (by omega) hgt)
    obtain ⟨rstart, rstop⟩ := r
    obtain ⟨sstart, sstop⟩ := s
    simp only at hs ht
    rwa [← hs, ← ht]

/-- A position lies on one line only. -/
theorem lineSpans_unique {r s : Span} {i : ℕ} (hr : r ∈ lineSpans gs) (hs : s ∈ lineSpans gs)
    (hri : r.start ≤ i ∧ i < r.stop) (hsi : s.start ≤ i ∧ i < s.stop) : r = s := by
  obtain ⟨_, _, hr₁, hr₂, hr₃⟩ := mem_lineSpans.mp hr
  obtain ⟨_, _, hs₁, hs₂, hs₃⟩ := mem_lineSpans.mp hs
  have hstart : r.start = s.start := by
    rcases Nat.lt_trichotomy r.start s.start with h | h | h
    · exact absurd hs₁ (hr₃ _ h (by omega))
    · exact h
    · exact absurd hr₁ (hs₃ _ h (by omega))
  have hstop : r.stop = s.stop := by
    rcases Nat.lt_trichotomy r.stop s.stop with h | h | h
    · exact absurd hr₂ (hs₃ _ (by omega) h)
    · exact h
    · exact absurd hs₂ (hr₃ _ (by omega) h)
  obtain ⟨_, _⟩ := r
  obtain ⟨_, _⟩ := s
  simp only at hstart hstop
  rw [hstart, hstop]

section Maps

variable {w : Glyph α τ → Glyph α τ}

theorem lines_map (hw : ∀ g, (w g).split = g.split) (gs : List (Glyph α τ)) :
    lines (gs.map w) = (lines gs).map (List.map w) := by
  rw [lines, ← map_splitBy]
  simp only [joins, hw]
  rfl

theorem endsReplaced_map (hw : ∀ g, (w g).split = g.split) (row : List (Glyph α τ)) :
    endsReplaced (row.map w) = endsReplaced row := by
  unfold endsReplaced
  rw [List.getLast?_map]
  cases row.getLast? with
  | none => rfl
  | some g => simp only [Option.map_some, hw]

theorem body_map (hw : ∀ g, (w g).split = g.split) (row : List (Glyph α τ)) :
    body (row.map w) = (body row).map w := by
  unfold body
  rw [endsReplaced_map hw]
  split_ifs
  · exact (List.map_dropLast ..).symm
  · rfl

theorem marker_map (hw : ∀ g, (w g).split = g.split) (row : List (Glyph α τ)) :
    marker (row.map w) = (marker row).map w := by
  unfold marker
  rw [endsReplaced_map hw, List.getLast?_map]
  split_ifs
  · cases row.getLast? <;> rfl
  · rfl

end Maps

end Glyph

end Typeset
