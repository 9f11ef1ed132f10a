import Typeset.Proofs.GreedyBreaks
import Typeset.Proofs.Paragraphs

/-!
# Lines that overflow

The cursor that places a glyph has moved by the room taken since its line started, which is also how
the breaks were chosen. So where a line of the layout reaches past its width, it could not have
ended earlier.
-/

namespace Typeset

namespace Glyph

variable {τ : Type}

section Rebreaks

variable {gs hs : List (Glyph ℚ τ)}

theorem takes_rebreaks (h : List.Forall₂ Rebreaks gs hs) (i : ℕ) : takes hs i = takes gs i := by
  induction h generalizing i with
  | nil => rfl
  | cons hab _ ih =>
    cases i with
    | zero =>
      obtain ⟨split, rfl, _⟩ := hab
      rfl
    | succ i => exact ih i

theorem room_rebreaks (h : List.Forall₂ Rebreaks gs hs) (a b : ℕ) : room hs a b = room gs a b :=
  Finset.sum_congr rfl fun i _ => takes_rebreaks h i

theorem exists_rebreaks (h : List.Forall₂ Rebreaks gs hs) {k : Glyph ℚ τ} (hk : k ∈ hs) :
    ∃ g ∈ gs, Rebreaks g k := by
  obtain ⟨i, hi⟩ := List.mem_iff_getElem?.mp hk
  obtain ⟨g, hg, hgk⟩ := exists_left_of_forall₂ h hi
  exact ⟨g, List.mem_of_getElem? hg, hgk⟩

theorem Forward.rebreaks (h : Forward gs) (hr : List.Forall₂ Rebreaks gs hs) : Forward hs := by
  intro k hk hann
  obtain ⟨g, hg, split, rfl, _⟩ := exists_rebreaks hr hk
  exact h g hg hann

theorem BreaksInText.rebreaks (h : BreaksInText gs) (hr : List.Forall₂ Rebreaks gs hs) :
    BreaksInText hs := by
  intro k hk hann
  obtain ⟨g, hg, split, rfl, hsplit⟩ := exists_rebreaks hr hk
  rw [hsplit hann]
  exact h g hg hann

/-- No glyph of the text is set beside the cursor. -/
def Unnudged (gs : List (Glyph ℚ τ)) : Prop := ∀ g ∈ gs, g.annotates = false → g.nudge = 0

theorem Unnudged.rebreaks (h : Unnudged gs) (hr : List.Forall₂ Rebreaks gs hs) :
    Unnudged hs := by
  intro k hk hann
  obtain ⟨g, hg, split, rfl, _⟩ := exists_rebreaks hr hk
  exact h g hg hann

end Rebreaks

section Cursor

variable {gs : List (Glyph ℚ τ)} {g : Glyph ℚ τ} {left first rest : ℚ} {edge : ℕ → ℚ} {a n : ℕ}
  {x y : ℚ}

/-- The cursor has come to `x` before the glyph `n`, on a line that starts at `a`. -/
structure Reaches (gs : List (Glyph ℚ τ)) (edge : ℕ → ℚ) (a n : ℕ) (x : ℚ) : Prop where
  le : a ≤ n
  cut : IsCut gs a
  uncut : ∀ b, a < b → b < n → ¬ IsCut gs b
  unreplaced : a < n → ∀ g, gs[n - 1]? = some g → g.split ≠ .replace
  cursor : x = edge a + room gs a n

theorem reaches_cut (h : IsCut gs n) : Reaches gs edge n n (edge n) where
  le := le_rfl
  cut := h
  uncut b hb hb' := absurd hb (by omega)
  unreplaced h := absurd h (lt_irrefl n)
  cursor := by simp

theorem Reaches.joined (h : Reaches gs edge a n x) (hg : gs[n]? = some g)
    (hsplit : a < n → g.split ≠ .before) {b : ℕ} (hb : a < b) (hbn : b ≤ n) : ¬ IsCut gs b := by
  rcases hbn.eq_or_lt with rfl | hlt
  · obtain ⟨c, rfl⟩ : ∃ c, b = c + 1 := ⟨b - 1, by omega⟩
    have hlen := (List.getElem?_eq_some_iff.mp hg).1
    obtain ⟨k, hk⟩ : ∃ k, gs[c]? = some k := ⟨gs[c], List.getElem?_eq_getElem _⟩
    rw [isCut_succ_iff hk hg]
    exact not_or.mpr ⟨h.unreplaced hb k hk, hsplit hb⟩
  · exact h.uncut b hb hlt

theorem Reaches.succ (h : Reaches gs edge a n x) (hg : gs[n]? = some g)
    (hbefore : a < n → g.split ≠ .before) (hreplace : g.split ≠ .replace)
    (hy : y = x + takes gs n) : Reaches gs edge a (n + 1) y where
  le := h.le.trans (Nat.le_succ n)
  cut := h.cut
  uncut b hb hbn := h.joined hg hbefore hb (Nat.lt_succ_iff.mp hbn)
  unreplaced _ k hk := by
    rw [Nat.add_sub_cancel, hg] at hk
    exact Option.some.inj hk ▸ hreplace
  cursor := by rw [hy, h.cursor, room_succ h.le, add_assoc]

theorem Reaches.start_eq (h : Reaches gs edge a n x) (hg : gs[n]? = some g)
    (hsplit : a < n → g.split ≠ .before) {line : Span} (hline : line ∈ lineSpans gs)
    (hstart : line.start ≤ n) (hstop : n < line.stop) : line.start = a := by
  obtain ⟨_, _, hcut, _, hbetween⟩ := mem_lineSpans.mp hline
  have hle := h.le
  rcases Nat.lt_trichotomy line.start a with hlt | heq | hgt
  · exact absurd h.cut (hbetween a hlt (by omega))
  · exact heq
  · exact absurd hcut (h.joined hg hsplit hgt hstart)

/-- A break before the glyph takes the cursor back to the edge. -/
theorem Reaches.look (h : Reaches gs (fun b => left + onLine first rest b) a n x)
    (hg : gs[n]? = some g) (hfirst : ∀ g, gs[0]? = some g → g.split ≠ .before) :
    ∃ b, Reaches gs (fun b => left + onLine first rest b) b n
      (if g.split = .before then left + rest else x) ∧ (b < n → g.split ≠ .before) := by
  by_cases hsplit : g.split = .before
  · cases n with
    | zero => exact absurd hsplit (hfirst g hg)
    | succ c =>
      have hlen := (List.getElem?_eq_some_iff.mp hg).1
      obtain ⟨k, hk⟩ : ∃ k, gs[c]? = some k := ⟨gs[c], List.getElem?_eq_getElem _⟩
      have hedge : left + rest = left + onLine first rest (c + 1) := by simp [onLine]
      rw [if_pos hsplit, hedge]
      exact ⟨c + 1, reaches_cut ((isCut_succ_iff hk hg).mpr (.inr hsplit)),
        fun hlt => absurd hlt (lt_irrefl _)⟩
  · rw [if_neg hsplit]
    exact ⟨a, h, fun _ => hsplit⟩

theorem cursorStep_of_annotates {e : ℚ} (hann : g.annotates = true) :
    cursorStep e x g = (x, g) := by
  simp [cursorStep, hann]

theorem x_cursorStep {e : ℚ} (hann : g.annotates = false) (hnudge : g.nudge = 0) :
    (cursorStep e x g).2.x = if g.split = .before then e else x := by
  cases hsplit : g.split <;> simp [cursorStep, putAt, hann, hnudge, hsplit]

theorem cursor_cursorStep {e : ℚ} (hann : g.annotates = false) (hreplace : g.split ≠ .replace) :
    (cursorStep e x g).1 =
      Scalar.smaller ((if g.split = .before then e else x) + g.advance) Scalar.maxExtent := by
  cases hsplit : g.split with
  | replace => exact absurd hsplit hreplace
  | none => simp [cursorStep, putAt, hann, hsplit]
  | before => simp [cursorStep, putAt, hann, hsplit]
  | hang => simp [cursorStep, putAt, hann, hsplit]

/-- The cursor is never held back at the largest coordinate. -/
def InReach (gs : List (Glyph ℚ τ)) : Prop :=
  ∀ g ∈ gs, g.annotates = false → g.split ≠ .replace → g.x + g.advance ≤ Scalar.maxExtent

theorem getElem?_placeAcross (left first rest : ℚ) (hg : gs[n]? = some g) :
    (placeAcross left first rest gs)[n]? = some (cursorStep (left + rest)
      (sweep (cursorStep (left + rest)) (left + first) (gs.take n)).1 g).2 := by
  rw [placeAcross, getElem?_sweep, hg, Option.map_some]

theorem cursor_in_reach (hreach : InReach (placeAcross left first rest gs)) (hnudge : Unnudged gs)
    (hg : gs[n]? = some g) (hann : g.annotates = false) (hreplace : g.split ≠ .replace)
    (hx : x = (sweep (cursorStep (left + rest)) (left + first) (gs.take n)).1) :
    (cursorStep (left + rest) x g).1 =
      (if g.split = .before then left + rest else x) + g.advance := by
  have hplaced := getElem?_placeAcross left first rest hg
  rw [← hx] at hplaced
  have hxg := x_cursorStep (x := x) (e := left + rest) hann
    (hnudge g (List.mem_of_getElem? hg) hann)
  obtain ⟨y, hy⟩ := moved_cursorStep (left + rest) x g
  rw [hy] at hplaced hxg
  have hle := hreach _ (List.mem_of_getElem? hplaced) hann hreplace
  rw [cursor_cursorStep hann hreplace, Scalar.smaller, if_pos (hxg ▸ hle)]

theorem reaches_cursor (hann : BreaksInText gs) (hnudge : Unnudged gs)
    (hfirst : ∀ g, gs[0]? = some g → g.split ≠ .before)
    (hreach : InReach (placeAcross left first rest gs)) (hn : n ≤ gs.length) :
    ∃ a, Reaches gs (fun b => left + onLine first rest b) a n
      (sweep (cursorStep (left + rest)) (left + first) (gs.take n)).1 := by
  induction n with
  | zero => exact ⟨0, reaches_cut (isCut_zero gs)⟩
  | succ n ih =>
    obtain ⟨a, h⟩ := ih (by omega)
    obtain ⟨g, hg⟩ : ∃ g, gs[n]? = some g := ⟨gs[n], List.getElem?_eq_getElem _⟩
    rw [sweep_take_succ _ _ hg]
    generalize hx : (sweep (cursorStep (left + rest)) (left + first) (gs.take n)).1 = x at h
    by_cases hgann : g.annotates = true
    · obtain ⟨hbefore, hreplace⟩ := hann g (List.mem_of_getElem? hg) hgann
      rw [cursorStep_of_annotates hgann]
      exact ⟨a, h.succ hg (fun _ => hbefore) hreplace
        (by rw [takes_of_annotates hg hgann, add_zero])⟩
    · rw [Bool.not_eq_true] at hgann
      by_cases hreplace : g.split = .replace
      · have hcut : IsCut gs (n + 1) := by
          rcases hn.eq_or_lt with heq | hlt
          · exact heq ▸ isCut_length gs
          · obtain ⟨k, hk⟩ : ∃ k, gs[n + 1]? = some k := ⟨gs[n + 1], List.getElem?_eq_getElem _⟩
            exact (isCut_succ_iff hg hk).mpr (.inl hreplace)
        refine ⟨n + 1, ?_⟩
        have hedge : (cursorStep (left + rest) x g).1 = left + onLine first rest (n + 1) := by
          simp [cursorStep, hgann, hreplace, onLine]
        rw [hedge]
        exact reaches_cut hcut
      · rw [cursor_in_reach hreach hnudge hg hgann hreplace hx.symm]
        obtain ⟨b, hb, hsplit⟩ := h.look hg hfirst
        exact ⟨b, hb.succ hg hsplit hreplace (by rw [takes_of_text hg hgann])⟩

/-- A glyph stands as far right of the edge as the room taken since its line started. -/
theorem x_placeAcross (hann : BreaksInText gs) (hnudge : Unnudged gs)
    (hfirst : ∀ g, gs[0]? = some g → g.split ≠ .before)
    (hreach : InReach (placeAcross left first rest gs)) {line : Span}
    (hline : line ∈ lineSpans gs) (hstart : line.start ≤ n) (hstop : n < line.stop)
    (hg : (placeAcross left first rest gs)[n]? = some g) (hgann : g.annotates = false) :
    g.x = left + onLine first rest line.start + room gs line.start n := by
  obtain ⟨k, hk, y, rfl⟩ := exists_left_of_forall₂ (moved_placeAcross left first rest gs) hg
  have hkann : k.annotates = false := hgann
  obtain ⟨a, h⟩ := reaches_cursor hann hnudge hfirst hreach
    (List.getElem?_eq_some_iff.mp hk).1.le
  obtain ⟨b, hb, hsplit⟩ := h.look hk hfirst
  rw [getElem?_placeAcross left first rest hk] at hg
  have hx := x_cursorStep (x := (sweep (cursorStep (left + rest)) (left + first) (gs.take n)).1)
    (e := left + rest) hkann (hnudge k (List.mem_of_getElem? hk) hkann)
  rw [Option.some.inj hg] at hx
  rw [hx, hb.cursor, hb.start_eq hk hsplit hline hstart hstop]

end Cursor

theorem onLine_sub (first rest indent indent' : ℚ) (start : ℕ) :
    onLine (first - indent) (rest - indent') start =
      onLine first rest start - onLine indent indent' start := by
  unfold onLine
  split_ifs <;> rfl

/-- A line that starts at `a` may end at the glyph `q`: in its place, or before it if it stands
right of the edge, behind a glyph that does not hang. -/
def MayEnd (marked shown : List (Glyph ℚ τ)) (edge : ℚ) (a q : ℕ) : Prop :=
  ∃ g, marked[q]? = some g ∧ g.annotates = false ∧ (g.split = .replace ∨ g.split = .before ∧
    (∃ h, shown[q]? = some h ∧ edge < h.x) ∧ ∃ k h, marked[k]? = some h ∧ a ≤ k ∧ k < q ∧
      h.annotates = false ∧ h.split ≠ .hang)

end Glyph

namespace Style

open Glyph

variable {τ : Type} {s : Style ℚ τ}

/-- A paragraph whose lines are filled up to the widths of a style. -/
def filled (s : Style ℚ τ) (marked : List (Glyph ℚ τ)) : List (Glyph ℚ τ) :=
  breakGreedy (s.firstWidth - s.firstIndent) (s.restWidth - s.restIndent) marked

theorem orderLines_greedy (hmode : s.mode = .greedy) (hrtl : s.rtl = false) (table : ClassTable)
    (gs : List (Glyph ℚ τ)) : s.orderLines (s.breakLines table gs) =
      s.filled (s.language.classifier.mark table gs) := by
  simp [orderLines, breakLines, filled, hmode, hrtl]

/-- Where the glyphs of a laid out paragraph stand. -/
theorem x_layout {table : ClassTable} {gs shown marked : List (Glyph ℚ τ)}
    (hmarked : marked = s.language.classifier.mark table gs) (hnudge : Unnudged gs)
    (hann : BreaksInText gs)
    (hstays : List.Forall₂ Stays
      (placeAcross s.left s.firstIndent s.restIndent (s.filled marked)) shown)
    (hreach : InReach shown) {r : Span} (hr : r ∈ lineSpans (s.filled marked)) {q : ℕ}
    (hstart : r.start ≤ q) (hstop : q < r.stop) {g h : Glyph ℚ τ}
    (hg : marked[q]? = some g) (hh : shown[q]? = some h) (hgann : g.annotates = false) :
    h.x = s.left + onLine s.firstIndent s.restIndent r.start + room marked r.start q ∧
      h.width = g.width := by
  have hmark := rebreaks_mark table s.language.classifier gs
  rw [← hmarked] at hmark
  have hbreak : List.Forall₂ Rebreaks marked (s.filled marked) := rebreaks_breakGreedy ..
  have hreach' :
      InReach (placeAcross s.left s.firstIndent s.restIndent (s.filled marked)) := by
    intro p hp hpann hsplit
    obtain ⟨i, hi⟩ := List.mem_iff_getElem?.mp hp
    obtain ⟨k, hk, hpk⟩ := exists_left_of_forall₂ hstays.flip hi
    have hkann : k.annotates = false := by rwa [annotates, hpk.ruby]
    rw [← hpk.x hpann, ← hpk.advance]
    exact hreach k (List.mem_of_getElem? hk) hkann (by rwa [hpk.split])
  obtain ⟨p, hp, hph⟩ := exists_left_of_forall₂ hstays hh
  obtain ⟨k, hk, y, rfl⟩ := exists_left_of_forall₂ (moved_placeAcross ..) hp
  obtain ⟨g', hg', split, rfl, _⟩ := exists_left_of_forall₂ hbreak hk
  rw [hg] at hg'
  obtain rfl := Option.some.inj hg'
  have hx := x_placeAcross ((hann.rebreaks hmark).rebreaks hbreak)
    ((hnudge.rebreaks hmark).rebreaks hbreak)
    (fun _ hk => head_breakGreedy (hann.rebreaks hmark) hk) hreach' hr hstart hstop hp hgann
  rw [room_rebreaks hbreak] at hx
  exact ⟨(hph.x hgann).trans hx, hph.width⟩

/-- Where the ink of a glyph reaches past the width of its line, the line could not have ended
before it. -/
theorem layout_overflow_forced [Scalar τ] (hmode : s.mode = .greedy) (hrtl : s.rtl = false)
    (hfraction : s.alignment.fraction = 0) (hjustify : s.alignment.justify = false)
    (table : ClassTable) (startTime : τ) (pre post : List (List (Glyph ℚ τ)))
    {gs : List (Glyph ℚ τ)} (hnudge : Unnudged gs) (hann : BreaksInText gs) :
    let L := s.layout table startTime (pre ++ gs :: post)
    let start := pre.flatten.length
    let shown := (⟨start, start + gs.length⟩ : Span).slice L.glyphs
    let marked := s.language.classifier.mark table gs
    InReach shown → ∀ l ∈ L.lines, ∀ i g m, shown[i]? = some g → marked[i]? = some m →
      IsTested m → l.span.start ≤ start + i → start + i < l.span.stop →
      s.left + (if l.span.start = start then s.firstWidth else s.restWidth) < g.x + g.width →
      ∀ q ≤ i, l.span.start ≤ start + q → ¬ MayEnd marked shown
        (s.left + if l.span.start = start then s.firstIndent else s.restIndent)
        (l.span.start - start) q := by
  intro L start shown marked hreach l hl i g m hg hm htested hstart hstop hover q hq hlq hmay
  have hleft : s.alignment.isLeft = true := by simp [Alignment.isLeft, hfraction, hjustify]
  have hmark : List.Forall₂ Rebreaks gs marked := rebreaks_mark table s.language.classifier gs
  have hi : i < gs.length := hmark.length_eq ▸ (List.getElem?_eq_some_iff.mp hm).1
  have hstays := stays_layout s table startTime pre post gs hleft
  obtain ⟨r, hr, hspan⟩ := span_layout s table startTime pre post gs hl hi hstart hstop
  rw [orderLines_greedy hmode hrtl] at hstays hr
  have hx := @x_layout τ s table gs shown marked rfl hnudge hann hstays hreach r hr
  have htight := tight_of_mem_lineSpans (hann.rebreaks hmark) hr
  have hline : ∀ a b : ℚ, (if l.span.start = start then a else b) = onLine a b r.start := by
    intro a b
    simp [onLine, hspan, Span.shift, start]
  have hrstart : l.span.start - start = r.start := by simp [hspan, Span.shift, start]
  have hrstop : l.span.stop = r.stop + start := by rw [hspan]; rfl
  rw [hline, hrstart] at hmay
  rw [hline] at hover
  obtain ⟨hgx, hgwidth⟩ := hx (by omega) (by omega) hm hg htested.1
  refine htight i (by omega) (by omega) ⟨m, hm, htested, ?_⟩ q hq (by omega) ?_
  · rw [onLine_sub]
    rw [hgx, hgwidth] at hover
    linarith
  · obtain ⟨k, hk, hkann, hsplit⟩ := hmay
    refine ⟨k, hk, hkann, hsplit.imp_right ?_⟩
    rintro ⟨hb, ⟨h, hh, hlt⟩, hheld⟩
    refine ⟨hb, ?_, hheld⟩
    rw [(hx (by omega) (by omega) hk hh hkann).1] at hlt
    linarith

/-- A style with lines of width one, broken at spaces. -/
def narrow : Style ℚ ℚ := { default.withWidth 1 with language := .western }

/-- Two words, of which the second is wider than a line of the narrow style. -/
def twoWords : List (Glyph ℚ ℚ) := [.ofCode 97 1, .ofCode 32 1, .ofCode 98 1, .ofCode 99 1]

def narrowLayout : Layout ℚ ℚ := narrow.layout .default 0 [twoWords]

theorem spans_narrowLayout : narrowLayout.lines.map Line.span = [⟨0, 2⟩, ⟨2, 4⟩] := by
  decide +kernel

theorem layout_overflow_forced_twoWords :
    Unnudged twoWords ∧ BreaksInText twoWords ∧
      InReach ((⟨0, 0 + 4⟩ : Span).slice narrowLayout.glyphs) ∧
      ∃ l ∈ narrowLayout.lines, l.span = ⟨2, 4⟩ ∧
        ∀ q ≤ 3, l.span.start ≤ 0 + q → ¬ MayEnd (markWestern twoWords)
          ((⟨0, 0 + 4⟩ : Span).slice narrowLayout.glyphs)
          (0 + if l.span.start = 0 then 0 else 0) (l.span.start - 0) q := by
  have hnudge : Unnudged twoWords := by simp [Unnudged, twoWords, ofCode]
  have hann : BreaksInText twoWords := by simp [BreaksInText, twoWords, ofCode]
  have hreach : InReach ((⟨0, 0 + 4⟩ : Span).slice narrowLayout.glyphs) := by
    unfold InReach
    decide +kernel
  have hshown : ((⟨0, 0 + 4⟩ : Span).slice narrowLayout.glyphs)[3]?.map
      (fun g => g.x + g.width) = some 2 := by
    decide +kernel
  have hmarked : (markWestern twoWords)[3]?.map (fun m => (m.annotates, m.split)) =
      some (false, .none) := by
    decide +kernel
  have hmem : (⟨2, 4⟩ : Span) ∈ narrowLayout.lines.map Line.span := by
    simp [spans_narrowLayout]
  obtain ⟨l, hl, hspan⟩ := List.mem_map.mp hmem
  obtain ⟨g, hg, hgx⟩ := Option.map_eq_some_iff.mp hshown
  obtain ⟨m, hm, hmtext⟩ := Option.map_eq_some_iff.mp hmarked
  have htested : IsTested m := ⟨congrArg Prod.fst hmtext, .inl (congrArg Prod.snd hmtext)⟩
  refine ⟨hnudge, hann, hreach, l, hl, hspan, ?_⟩
  refine layout_overflow_forced rfl rfl rfl rfl .default 0 [] [] hnudge hann hreach l hl 3 g m hg
    hm htested (by simp [hspan]) (by simp [hspan]) ?_
  rw [hgx, hspan]
  decide +kernel

end Style

end Typeset
