import Typeset.Proofs.Abutting
import Typeset.Proofs.Reflow
import Typeset.Proofs.Rows
import Typeset.Proofs.TurnedBases

/-!
# The order of reveal

The clock of a layout runs through its text in the order in which it stands: from glyph to glyph,
from line to line, and on from one paragraph to the next. It stands still at annotations. So the
times, the numbers and the latest times of lines follow from how much text stands before, whichever
pass looks.
-/

namespace Typeset

open Glyph

/-- The glyphs that take their turn in the reveal: all but annotations. -/
def revealed {α τ : Type} (gs : List (Glyph α τ)) : List (Glyph α τ) :=
  gs.filter fun g => !g.annotates

/-- A clock runs along some glyphs: each takes the same time, and annotations take none. -/
inductive Ticks {α : Type} (each : ℚ) : ℚ → List (Glyph α ℚ) → ℚ → Prop
  | nil (t : ℚ) : Ticks each t [] t
  | pause {t u : ℚ} {g : Glyph α ℚ} {gs : List (Glyph α ℚ)} (ann : g.annotates = true)
      (time : g.time = -1) (duration : g.duration = -1) (rest : Ticks each t gs u) :
      Ticks each t (g :: gs) u
  | text {t u : ℚ} {g : Glyph α ℚ} {gs : List (Glyph α ℚ)} (ann : g.annotates = false)
      (time : g.time = t + each) (duration : g.duration = each)
      (rest : Ticks each (t + each) gs u) : Ticks each t (g :: gs) u

section Ticks

variable {α : Type} {each t u : ℚ} {g : Glyph α ℚ} {gs hs : List (Glyph α ℚ)}
  {rows : List (List (Glyph α ℚ))}

theorem revealed_cons_of_annotates (h : g.annotates = true) : revealed (g :: gs) = revealed gs := by
  simp [revealed, h]

theorem revealed_cons_of_text (h : g.annotates = false) :
    revealed (g :: gs) = g :: revealed gs := by
  simp [revealed, h]

theorem ticks_assignTimes (start rate : ℚ) (gs : List (Glyph α ℚ)) :
    Ticks (glyphTime rate) start (assignTimes start rate gs).2 (assignTimes start rate gs).1 := by
  unfold assignTimes
  induction gs generalizing start with
  | nil => exact .nil start
  | cons g gs ih =>
    rw [sweep_cons]
    have huntimed : (untimed : ℚ) = -1 := by decide +kernel
    cases hann : g.annotates with
    | true =>
      simp only [timeStep, hann, if_true]
      exact .pause hann huntimed huntimed (ih start)
    | false =>
      simp only [timeStep, hann, Bool.false_eq_true, if_false]
      exact .text hann rfl rfl (ih _)

theorem ticks_append :
    Ticks each t (gs ++ hs) u ↔ ∃ v, Ticks each t gs v ∧ Ticks each v hs u := by
  constructor
  · intro h
    induction gs generalizing t with
    | nil => exact ⟨t, .nil t, h⟩
    | cons g gs ih =>
      cases h with
      | pause ann time duration rest =>
        obtain ⟨v, hgs, hhs⟩ := ih rest
        exact ⟨v, .pause ann time duration hgs, hhs⟩
      | text ann time duration rest =>
        obtain ⟨v, hgs, hhs⟩ := ih rest
        exact ⟨v, .text ann time duration hgs, hhs⟩
  · rintro ⟨v, hgs, hhs⟩
    induction hgs with
    | nil t => exact hhs
    | pause ann time duration _ ih => exact .pause ann time duration (ih hhs)
    | text ann time duration _ ih => exact .text ann time duration (ih hhs)

/-- The clock shows in the glyphs, so a pass that leaves their times leaves it. -/
theorem Ticks.pass (h : Ticks each t gs u) (hpass : List.Forall₂ (fun g h : Glyph α ℚ =>
    h.annotates = g.annotates ∧ h.time = g.time ∧ h.duration = g.duration) gs hs) :
    Ticks each t hs u := by
  induction h generalizing hs with
  | nil t =>
    rw [List.forall₂_nil_left_iff.mp hpass]
    exact .nil t
  | pause ann time duration _ ih =>
    obtain ⟨h, hs, ⟨hann, htime, hduration⟩, hrest, rfl⟩ := List.forall₂_cons_left_iff.mp hpass
    exact .pause (hann.trans ann) (htime.trans time) (hduration.trans duration) (ih hrest)
  | text ann time duration _ ih =>
    obtain ⟨h, hs, ⟨hann, htime, hduration⟩, hrest, rfl⟩ := List.forall₂_cons_left_iff.mp hpass
    exact .text (hann.trans ann) (htime.trans time) (hduration.trans duration) (ih hrest)

theorem Ticks.untimed (h : Ticks each t gs u) :
    ∀ g ∈ gs, g.annotates = true → g.time = -1 ∧ g.duration = -1 := by
  induction h with
  | nil => simp
  | pause ann time duration _ ih => simpa [time, duration] using ih
  | text ann _ _ _ ih => simpa [ann] using ih

/-- How far the clock has run. -/
theorem Ticks.stop_eq (h : Ticks each t gs u) : u = t + (revealed gs).length * each := by
  induction h with
  | nil => simp [revealed]
  | pause ann _ _ _ ih => rwa [revealed_cons_of_annotates ann]
  | text ann _ _ _ ih =>
    rw [revealed_cons_of_text ann, List.length_cons, ih]
    push_cast
    ring

theorem Ticks.le (h : Ticks each t gs u) (heach : 0 ≤ each) : t ≤ u := by
  rw [h.stop_eq]
  exact le_add_of_nonneg_right (by positivity)

/-- The time of a glyph follows from how many came before it. -/
theorem Ticks.nth (h : Ticks each t gs u) {n : ℕ} (hg : (revealed gs)[n]? = some g) :
    g.time = t + (n + 1) * each ∧ g.duration = each := by
  induction h generalizing n with
  | nil => simp [revealed] at hg
  | pause ann _ _ _ ih =>
    rw [revealed_cons_of_annotates ann] at hg
    exact ih hg
  | text ann time duration _ ih =>
    rw [revealed_cons_of_text ann] at hg
    cases n with
    | zero =>
      obtain rfl := Option.some.inj hg
      simp [time, duration]
    | succ n =>
      obtain ⟨htime, hduration⟩ := ih hg
      refine ⟨?_, hduration⟩
      rw [htime]
      push_cast
      ring

theorem Ticks.time_last (h : Ticks each t gs u) (hg : (revealed gs).getLast? = some g) :
    g.time = u := by
  have hne : 0 < (revealed gs).length := by
    rw [List.length_pos_iff]
    rintro hnil
    simp [hnil] at hg
  rw [List.getLast?_eq_getElem?] at hg
  rw [(h.nth hg).1, h.stop_eq]
  push_cast [Nat.cast_sub (Nat.one_le_of_lt hne)]
  ring

theorem Ticks.isTimed (h : Ticks each t gs u) (ht : 0 ≤ t) (heach : 0 ≤ each) :
    ∀ g ∈ gs, g.isTimed = !g.annotates := by
  induction h with
  | nil => simp
  | pause ann time _ _ ih =>
    rw [List.forall_mem_cons, ann, Glyph.isTimed, time]
    exact ⟨by decide, ih ht⟩
  | text ann time _ _ ih =>
    rw [List.forall_mem_cons, ann, Glyph.isTimed, time]
    exact ⟨decide_eq_true (add_nonneg ht heach), ih (add_nonneg ht heach)⟩

/-- Glyphs are numbered in the order in which the clock runs. -/
theorem index_assignIndices (htimed : ∀ g ∈ gs, g.isTimed = !g.annotates) (start : ℤ) {n : ℕ}
    (hg : (revealed (assignIndices start gs).2)[n]? = some g) : g.index = start + n := by
  unfold assignIndices at hg
  induction gs generalizing start n with
  | nil => simp [revealed] at hg
  | cons k gs ih =>
    obtain ⟨hk, hgs⟩ := List.forall_mem_cons.mp htimed
    rw [sweep_cons] at hg
    cases hann : k.annotates with
    | true =>
      simp only [indexStep, hk, hann, Bool.not_true, Bool.false_eq_true, if_false] at hg
      rw [revealed_cons_of_annotates hann] at hg
      exact ih hgs start hg
    | false =>
      simp only [indexStep, hk, hann, Bool.not_false, if_true] at hg
      rw [revealed_cons_of_text (by exact hann)] at hg
      cases n with
      | zero =>
        obtain rfl := Option.some.inj hg
        simp
      | succ n =>
        rw [ih hgs (start + 1) hg]
        push_cast
        ring

theorem foldl_latest {m : ℚ} (hm : 0 ≤ m) (gs : List (Glyph α ℚ)) :
    gs.foldl (fun t g => Scalar.larger t g.time) m = max m (latestTime gs) := by
  have hmax : (gs.map Glyph.time).foldl max (max m 0) = max m ((gs.map Glyph.time).foldl max 0) :=
    List.foldl_assoc
  rw [max_eq_left hm, List.foldl_map, List.foldl_map] at hmax
  simpa only [latestTime, Scalar.larger_eq_max] using hmax

/-- The latest time on any piece of a text is that of the text. -/
theorem latestTime_flatten (rows : List (List (Glyph α ℚ))) :
    rows.foldl (fun m row => Scalar.larger m (latestTime row)) 0 = latestTime rows.flatten := by
  have hrun : ∀ m : ℚ, 0 ≤ m → rows.foldl (fun m row => Scalar.larger m (latestTime row)) m =
      rows.flatten.foldl (fun t g => Scalar.larger t g.time) m := by
    induction rows with
    | nil => simp
    | cons row rows ih =>
      intro m hm
      rw [List.foldl_cons, Scalar.larger_eq_max, ih _ (hm.trans (le_max_left ..)),
        List.flatten_cons, List.foldl_append, foldl_latest hm row]
  exact hrun 0 le_rfl

/-- The latest time among glyphs is when the clock stops, if any of them moves it. -/
theorem Ticks.latest (h : Ticks each t gs u) (ht : 0 ≤ t) (heach : 0 ≤ each) :
    latestTime gs = if revealed gs = [] then 0 else u := by
  have hcons : ∀ (g : Glyph α ℚ) (gs : List (Glyph α ℚ)),
      latestTime (g :: gs) = max (max 0 g.time) (latestTime gs) := by
    intro g gs
    rw [latestTime, List.foldl_cons, Scalar.larger_eq_max, foldl_latest (le_max_left ..)]
  -- along the clock: a glyph that moves it is at least as late as the start, so the last one counts
  induction h with
  | nil => simp [revealed, latestTime]
  | pause ann time _ rest ih =>
    have hle := rest.le heach
    rw [hcons, time, ih ht, revealed_cons_of_annotates ann]
    split_ifs
    · norm_num
    · simp [ht.trans hle]
  | text ann time _ rest ih =>
    have hnext := add_nonneg ht heach
    have hle := rest.le heach
    rw [hcons, time, ih hnext, revealed_cons_of_text ann,
      if_neg (List.cons_ne_nil _ _), max_eq_right hnext]
    split_ifs with hnil
    · rw [rest.stop_eq, hnil]
      simpa using hnext
    · exact max_eq_right hle

/-- The clock runs through each piece of a text. -/
theorem Ticks.exists_of_mem (h : Ticks each t rows.flatten u) (heach : 0 ≤ each) :
    ∀ row ∈ rows, ∃ v w, t ≤ v ∧ w ≤ u ∧ Ticks each v row w := by
  induction rows generalizing t with
  | nil => simp
  | cons row rows ih =>
    obtain ⟨v, hrow, hrows⟩ := ticks_append.mp h
    intro piece hpiece
    rcases List.mem_cons.mp hpiece with rfl | hpiece
    · exact ⟨t, v, le_rfl, hrows.le heach, hrow⟩
    · obtain ⟨w, w', hle, hle', hticks⟩ := ih hrows piece hpiece
      exact ⟨w, w', (hrow.le heach).trans hle, hle', hticks⟩

/-- The latest times of the pieces of a text never decrease, where there is text. -/
theorem Ticks.pairwise_latest (h : Ticks each t rows.flatten u) (ht : 0 ≤ t) (heach : 0 ≤ each) :
    rows.Pairwise fun row row' =>
      revealed row ≠ [] → revealed row' ≠ [] → latestTime row ≤ latestTime row' := by
  induction rows generalizing t with
  | nil => exact .nil
  | cons row rows ih =>
    obtain ⟨v, hrow, hrows⟩ := ticks_append.mp h
    have htv := hrow.le heach
    refine .cons (fun row' hmem htext htext' => ?_) (ih hrows (ht.trans htv))
    obtain ⟨w, w', hle, _, hticks⟩ := hrows.exists_of_mem heach row' hmem
    rw [hrow.latest ht heach, if_neg htext, hticks.latest (by linarith) heach, if_neg htext']
    exact hle.trans (hticks.le heach)

end Ticks

section Content

variable {α τ : Type} [Scalar α] [Scalar τ] {rtl : Bool} {src row row' : List (Glyph α τ)}

/-- A glyph without what a layout writes: position, ascent, break, times and direction, and the
number unless it annotates. -/
def Glyph.inherent (g : Glyph α τ) : Glyph α τ :=
  { g.unplaced with ascent := 0, split := .none, rtl := false }

/-- A row holds the glyphs of its source, in order unless the text is turned around. -/
structure RowOf (rtl : Bool) (src row : List (Glyph α τ)) : Prop where
  perm : (row.map inherent).Perm (src.map inherent)
  ordered : rtl = false → row.map inherent = src.map inherent

theorem RowOf.pass (h : RowOf rtl src row)
    (hpass : List.Forall₂ (fun g k : Glyph α τ => k.inherent = g.inherent) row row') :
    RowOf rtl src row' := by
  have hmap : row'.map inherent = row.map inherent := map_eq_of_forall₂ hpass fun _ _ _ h => h
  exact ⟨hmap ▸ h.perm, fun hrtl => hmap ▸ h.ordered hrtl⟩

theorem rowOf_turnLine (h : RowOf false src row) : RowOf true src (turnLine row) := by
  have hinherent : ∀ l : List (Glyph α τ), (l.map unturned).map inherent = l.map inherent := by
    intro l
    rw [List.map_map]
    rfl
  have hturned : (turnLine row).map inherent =
      (turnUnits (body row) ++ marker row).map inherent := by
    rw [← hinherent, map_unturned_turnLine, hinherent]
  refine ⟨?_, nofun⟩
  rw [hturned, ← h.ordered rfl]
  exact (turnUnits_body_perm row).map inherent

/-- A glyph that differs in its position, its ascent and its times at most. -/
def Glyph.Written (g k : Glyph α τ) : Prop :=
  ∃ x y ascent time duration, k = { g with x, y, ascent, time, duration }

omit [Scalar α] [Scalar τ] in
theorem Glyph.Written.trans {g k m : Glyph α τ} (h : Written g k) (h' : Written k m) :
    Written g m := by
  obtain ⟨_, _, _, _, _, rfl⟩ := h
  obtain ⟨x, y, ascent, time, duration, rfl⟩ := h'
  exact ⟨x, y, ascent, time, duration, rfl⟩

/-- Once its lines are in order, a paragraph is placed and timed. -/
theorem written_layParagraph (s : Style α τ) (table : ClassTable) (start : Style.Start α τ)
    (gs : List (Glyph α τ)) :
    List.Forall₂ Written (s.orderLines (s.breakLines table gs))
      (s.layParagraph table start gs).2.2 := by
  unfold Style.layParagraph
  dsimp only
  generalize s.orderLines (s.breakLines table gs) = ordered
  have hacross : List.Forall₂ Written ordered
      (placeAcross s.left s.firstIndent s.restIndent ordered) := by
    apply (moved_placeAcross ..).imp
    rintro g _ ⟨x, rfl⟩
    exact ⟨x, g.y, g.ascent, g.time, g.duration, rfl⟩
  generalize placeAcross s.left s.firstIndent s.restIndent ordered = across at hacross ⊢
  have hdown : List.Forall₂ Written across (placeDown s.spacing start.y across).glyphs := by
    apply (written_placeDown ..).imp
    rintro g _ ⟨y, ascent, rfl, _⟩
    exact ⟨g.x, y, ascent, g.time, g.duration, rfl⟩
  generalize (placeDown s.spacing start.y across).glyphs = down at hdown ⊢
  have hnotes : List.Forall₂ Written down (placeAnnotations s.rubyOffsets down) := by
    apply (written_placeAnnotations ..).imp
    rintro g _ ⟨x, y, rfl, _⟩
    exact ⟨x, y, g.ascent, g.time, g.duration, rfl⟩
  generalize placeAnnotations s.rubyOffsets down = notes at hnotes ⊢
  have htimes : List.Forall₂ Written notes (assignTimes start.time s.rate notes).2 := by
    apply (written_assignTimes ..).imp
    rintro g _ ⟨time, duration, rfl, _⟩
    exact ⟨g.x, g.y, g.ascent, time, duration, rfl⟩
  have htrans : ∀ g k m : Glyph α τ, Written g k → Written k m → Written g m :=
    fun _ _ _ => Written.trans
  exact forall₂_trans htrans hacross
    (forall₂_trans htrans hdown (forall₂_trans htrans hnotes htimes))

/-- The finished lines of a paragraph are rows of it. -/
theorem rowsOf_layParagraph (s : Style α τ) (table : ClassTable) (start : Style.Start α τ)
    (gs : List (Glyph α τ)) : ∃ srcs, srcs.flatten = gs ∧
      List.Forall₂ (RowOf s.rtl) srcs (lines (s.layParagraph table start gs).2.2) := by
  have hbroken : List.Forall₂ (fun g k : Glyph α τ => k.inherent = g.inherent) gs
      (lines (s.breakLines table gs)).flatten := by
    rw [flatten_lines]
    apply (resplit_breakLines s table gs).imp
    rintro g _ ⟨split, rfl⟩
    rfl
  -- cut the text where the breaks cut it; turning the lines around leaves them the same lines
  obtain ⟨srcs, rfl, hsrcs⟩ := forall₂_flatten_split hbroken
  have hfinished := forall₂_lines (fun _ _ ⟨_, _, _, _, _, h⟩ => h ▸ rfl)
    (written_layParagraph s table start srcs.flatten)
  have hordered : List.Forall₂ (RowOf s.rtl) srcs
      (lines (s.orderLines (s.breakLines table srcs.flatten))) := by
    have hrows : List.Forall₂ (RowOf false) srcs (lines (s.breakLines table srcs.flatten)) := by
      apply hsrcs.imp
      intro src row h
      have hmap : row.map inherent = src.map inherent := map_eq_of_forall₂ h fun _ _ _ h => h
      exact ⟨hmap ▸ .refl _, fun _ => hmap⟩
    unfold Style.orderLines
    cases s.rtl with
    | false => exact hrows
    | true =>
      rw [if_pos rfl, lines_turnLines, List.forall₂_map_right_iff]
      exact hrows.imp fun _ _ => rowOf_turnLine
  refine ⟨srcs, rfl, forall₂_comp hordered hfinished fun src row row' hrow hrow' => ?_⟩
  apply hrow.pass
  apply hrow'.imp
  rintro g _ ⟨x, y, ascent, time, duration, rfl⟩
  rfl

end Content

section Layout

variable {α : Type} [Scalar α]

/-- A layout revealed from a time on, glyph after glyph. -/
structure Layout.Scheduled (L : Layout α ℚ) (rtl : Bool) (start each : ℚ)
    (blocks : List (List (Glyph α ℚ))) : Prop where
  /-- The lines are rows of the text, whose annotations keep the numbers that they came with. -/
  rows : RowsAt (RowOf rtl) 0 blocks.flatten L.glyphs (L.lines.map Line.span)
  untimed : ∀ g ∈ L.glyphs, g.annotates = true → g.time = -1 ∧ g.duration = -1
  timed : ∀ (n : ℕ) (g : Glyph α ℚ), (revealed L.glyphs)[n]? = some g →
    g.index = n ∧ g.time = start + (n + 1) * each ∧ g.duration = each
  lineTime : ∀ l ∈ L.lines,
    (∀ g, (revealed (l.span.slice L.glyphs)).getLast? = some g → l.maxTime = g.time) ∧
      (revealed (l.span.slice L.glyphs) = [] → l.maxTime = 0)
  mono : L.lines.Pairwise fun k l => revealed (k.span.slice L.glyphs) ≠ [] →
    revealed (l.span.slice L.glyphs) ≠ [] → k.maxTime ≤ l.maxTime
  nextTime : L.nextTime = start + (revealed L.glyphs).length * each
  maxTime : L.maxTime = if revealed L.glyphs = [] then 0 else L.nextTime

variable (s : Style α ℚ) (table : ClassTable)

theorem ticks_layParagraph (start : Style.Start α ℚ) (gs : List (Glyph α ℚ)) :
    Ticks (glyphTime s.rate) start.time (s.layParagraph table start gs).2.2
      (s.layParagraph table start gs).1.time := by
  unfold Style.layParagraph
  dsimp only
  exact ticks_assignTimes start.time s.rate _

theorem ticks_sweep (start : Style.Start α ℚ) (blocks : List (List (Glyph α ℚ))) :
    Ticks (glyphTime s.rate) start.time
      ((sweep (s.layParagraph table) start blocks).2.flatMap Prod.snd)
      (sweep (s.layParagraph table) start blocks).1.time := by
  induction blocks generalizing start with
  | nil => exact .nil start.time
  | cons gs blocks ih =>
    have hfirst := ticks_layParagraph s table start gs
    rw [sweep_cons, List.flatMap_cons]
    exact ticks_append.mpr ⟨_, hfirst, ih (s.layParagraph table start gs).1⟩

/-- Before it is numbered the text of a layout stands in its lines and has its times. -/
theorem exists_timed (startTime : ℚ) (blocks : List (List (Glyph α ℚ))) :
    ∃ gs, (s.layout table startTime blocks).glyphs = (assignIndices 0 gs).2 ∧
      Ticks (glyphTime s.rate) startTime gs (s.layout table startTime blocks).nextTime ∧
      RowsAt (RowOf s.rtl) 0 blocks.flatten gs
        ((s.layout table startTime blocks).lines.map Line.span) := by
  have hle := start_le_stop_sweep s table ⟨s.top, startTime, 0⟩ blocks
  have hticks := ticks_sweep s table ⟨s.top, startTime, 0⟩ blocks
  have hlength : ∀ src row : List (Glyph α ℚ), RowOf s.rtl src row → src.length = row.length := by
    intro src row h
    simpa using h.perm.length_eq.symm
  have hblock : ∀ (start : Style.Start α ℚ) (src gs : List (Glyph α ℚ)), src = gs →
      ∃ srcs, srcs.flatten = src ∧
        List.Forall₂ (RowOf s.rtl) srcs (lines (s.layParagraph table start gs).2.2) := by
    rintro start src _ rfl
    exact rowsOf_layParagraph s table start src
  have hrows := rowsAt_sweep hlength hblock (forall₂_refl (R := Eq) Eq.refl blocks)
    ⟨s.top, startTime, 0⟩
  unfold Style.layout
  dsimp only
  rw [map_span_timeLines]
  refine ⟨_, rfl, hticks.pass ?_, hrows.align _ _ fun ends src row _ h => ?_⟩
  · apply (moved_alignLines _ _ _ _ hle).imp
    rintro g _ ⟨x, rfl⟩
    exact ⟨rfl, rfl, rfl⟩
  · apply h.pass
    apply (moved_alignLine ..).imp
    rintro g _ ⟨x, rfl⟩
    rfl

/-- Numbering a timed text writes nothing that it does not own. -/
theorem inherent_assignIndices {gs : List (Glyph α ℚ)}
    (htimed : ∀ g ∈ gs, g.isTimed = !g.annotates) :
    List.Forall₂ (fun g k : Glyph α ℚ => k.inherent = g.inherent) gs (assignIndices 0 gs).2 := by
  apply ((List.forall₂_and_left _ _).mpr ⟨htimed, written_assignIndices 0 gs⟩).imp
  rintro g _ ⟨hg, index, rfl, hindex⟩
  cases hann : g.annotates with
  | true => rw [hindex (by simp [hg, hann])]
  | false =>
    have hann' : ({ g with index } : Glyph α ℚ).annotates = false := hann
    simp [inherent, unplaced, unstacked, unseated, unclocked, unnumbered, hann, hann']

/-- What the clock makes of a text that stands in lines. -/
theorem scheduled_of_ticks {L : Layout α ℚ} {rtl : Bool} {start each : ℚ}
    {blocks : List (List (Glyph α ℚ))} (hstart : 0 ≤ start) (heach : 0 ≤ each)
    (hrows : RowsAt (RowOf rtl) 0 blocks.flatten L.glyphs (L.lines.map Line.span))
    (hticks : Ticks each start L.glyphs L.nextTime)
    (hindex : ∀ (n : ℕ) (g : Glyph α ℚ), (revealed L.glyphs)[n]? = some g → g.index = n)
    (hlines : ∀ l ∈ L.lines, l.maxTime = latestTime (l.span.slice L.glyphs))
    (hlatest : L.maxTime = latestLine L.lines) : L.Scheduled rtl start each blocks := by
  obtain ⟨_, rows, _, hflat, hspans, _⟩ := id hrows
  have hslices : L.lines.map (fun l => l.span.slice L.glyphs) = rows := by
    have hcut := Span.map_slice_ofLengths [] rows
    rwa [List.nil_append, hflat, List.length_nil, ← hspans, List.map_map] at hcut
  have hticks' : Ticks each start rows.flatten L.nextTime := hflat ▸ hticks
  have hpairwise := hticks'.pairwise_latest hstart heach
  rw [← hslices, List.pairwise_map] at hpairwise
  refine ⟨hrows, hticks.untimed, fun n g hg => ⟨hindex n g hg, hticks.nth hg⟩, ?_, ?_,
    hticks.stop_eq, ?_⟩
  · intro l hl
    have hrow : l.span.slice L.glyphs ∈ rows := hslices ▸ List.mem_map_of_mem hl
    obtain ⟨v, w, hle, _, hline⟩ := hticks'.exists_of_mem heach _ hrow
    rw [hlines l hl, hline.latest (hstart.trans hle) heach]
    refine ⟨fun g hg => ?_, fun hnil => if_pos hnil⟩
    rw [hline.time_last hg, if_neg]
    rintro hnil
    simp [hnil] at hg
  · refine hpairwise.imp_of_mem fun {k l} hk hl h => ?_
    rwa [hlines k hk, hlines l hl]
  · have hmax : L.lines.map Line.maxTime = rows.map latestTime := by
      rw [← hslices, List.map_map]
      exact List.map_congr_left hlines
    rw [hlatest, latestLine, ← hticks.latest hstart heach, ← hflat, ← latestTime_flatten,
      ← List.foldl_map (f := Line.maxTime) (g := Scalar.larger), hmax, List.foldl_map]

/-- From the start of a layout on its text is revealed glyph after glyph. -/
theorem Style.layout_scheduled {startTime : ℚ} (hrate : 0 ≤ s.rate) (hstart : 0 ≤ startTime)
    (blocks : List (List (Glyph α ℚ))) :
    (s.layout table startTime blocks).Scheduled s.rtl startTime
      (if s.rate = 0 then 0 else 1 / s.rate) blocks := by
  have hglyphTime : glyphTime s.rate = if s.rate = 0 then 0 else 1 / s.rate := by
    simp [glyphTime]
  have heach : 0 ≤ glyphTime s.rate := Clock.nonneg_glyphTime _ hrate
  rw [← hglyphTime]
  obtain ⟨gs, hglyphs, hticks, hrows⟩ := exists_timed s table startTime blocks
  have htimed := hticks.isTimed hstart heach
  apply scheduled_of_ticks hstart heach
  · rw [hglyphs]
    exact hrows.pass (inherent_assignIndices htimed) fun _ _ _ hpass h => h.pass hpass
  · rw [hglyphs]
    apply hticks.pass
    apply (written_assignIndices 0 gs).imp
    rintro g _ ⟨index, rfl, _⟩
    exact ⟨rfl, rfl, rfl⟩
  · intro n g hg
    rw [hglyphs] at hg
    simpa using index_assignIndices htimed 0 hg
  · intro l hl
    obtain ⟨k, _, rfl⟩ := List.mem_map.mp hl
    rfl
  · rfl

end Layout

/-- A style set from the right, with lines of width three and four glyphs a second. -/
def Style.fromRight : Style ℚ ℚ :=
  { (Style.default : Style ℚ ℚ).withWidth 3 with language := .anywhere, rtl := true, rate := 4 }

/-- Two words, the second annotated by a glyph with a number of its own, and one letter more. -/
def twoParagraphs : List (List (Glyph ℚ ℚ)) :=
  [[.ofCode 97 1, .ofCode 98 1, .ofCode 32 1, .ofCode 99 1,
    { (.ofCode 100 1 : Glyph ℚ ℚ) with ruby := .above, index := 7 }], [.ofCode 101 1]]

theorem Style.layout_scheduled_twoParagraphs :
    let L := Style.fromRight.layout .default 1 twoParagraphs
    L.glyphs.map (fun g => (g.code, g.index, g.time)) =
        [(98, 0, 5 / 4), (97, 1, 3 / 2), (32, 2, 7 / 4), (99, 3, 2), (100, 7, -1),
          (101, 4, 9 / 4)] ∧
      L.lines.map Line.maxTime = [7 / 4, 2, 9 / 4] ∧ L.maxTime = 9 / 4 ∧
      L.Scheduled true 1 (1 / 4) twoParagraphs := by
  have hrate : (0 : ℚ) ≤ Style.fromRight.rate := by decide
  have hstart : (0 : ℚ) ≤ 1 := by decide
  have heach : (if Style.fromRight.rate = 0 then 0 else 1 / Style.fromRight.rate) = 1 / 4 := by
    decide +kernel
  have hscheduled := Style.layout_scheduled Style.fromRight .default hrate hstart twoParagraphs
  rw [heach] at hscheduled
  exact ⟨by decide +kernel, by decide +kernel, by decide +kernel, hscheduled⟩

end Typeset
