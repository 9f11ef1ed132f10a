import Typeset.Proofs.Overflow
import Typeset.Proofs.Rows

/-!
# Glyphs side by side

On a line of text without annotations no glyph reaches into the next: the cursor moves by the width
of each glyph, and alignment moves no glyph further than one behind it. A line set from the right
holds its text backwards, but for the replaced glyph at its end.
-/

namespace Typeset

open Glyph

section Turned

variable {α τ β : Type}

/-- The first `n` elements of a row, turned around if the text is set from the right, and the rest
of it. -/
def turned (rtl : Bool) (n : ℕ) (l : List β) : List β :=
  if rtl then (l.take n).reverse ++ l.drop n else l

theorem length_turned (rtl : Bool) (n : ℕ) (l : List β) : (turned rtl n l).length = l.length := by
  unfold turned
  split_ifs
  · rw [List.length_append, List.length_reverse, ← List.length_append, List.take_append_drop]
  · rfl

/-- Without annotations and bases every glyph is a unit. -/
theorem turnUnits_plain {gs : List (Glyph α τ)} (h : ∀ g ∈ gs, g.ruby = .plain) :
    turnUnits gs = gs.reverse := by
  have hunits : gs.splitBy sameUnit = gs.map fun g => [g] := by
    refine List.splitBy_eq_iff.mpr ⟨?_, by simp, ?_, ?_⟩
    · rw [← List.flatMap_def, List.flatMap_singleton']
    · rintro _ hunit
      obtain ⟨g, _, rfl⟩ := List.mem_map.mp hunit
      exact .singleton g
    · apply (List.isChain_map _).mpr
      apply List.Pairwise.isChain
      refine List.pairwise_of_forall_mem_list fun a ha b hb => ⟨by simp, by simp, ?_⟩
      simp [sameUnit, annotates, RubyRole.annotates, h a ha, h b hb]
  have hunit : ∀ g ∈ gs, turnUnit [g] = [g] := by
    intro g hg
    simp [turnUnit, annotates, RubyRole.annotates, h g hg]
  rw [turnUnits, hunits, ← List.map_reverse, List.flatMap_map]
  rw [List.flatMap_congr (g := fun g => [g]) fun g hg => hunit g (List.mem_reverse.mp hg)]
  simp

variable [Scalar α]

theorem keeps_turnBody {gs : List (Glyph α τ)} (h : ∀ g ∈ gs, g.ruby = .plain) :
    List.Forall₂ Keeps gs.reverse (turnBody gs) := by
  have htrans : ∀ {l m n : List (Glyph α τ)}, List.Forall₂ Keeps l m → List.Forall₂ Keeps m n →
      List.Forall₂ Keeps l n := forall₂_trans (R := Keeps) fun _ _ _ => Keeps.trans
  unfold turnBody
  dsimp only
  split_ifs
  · have hcleared := keeps_withLeadingSplit .none gs
    have hplain := forall_mem_of_forall₂ hcleared (fun a b hab ha => hab.ruby.trans ha) h
    rw [turnUnits_plain hplain]
    apply htrans (List.forall₂_reverse_iff.mpr hcleared)
    exact htrans (keeps_withLeadingSplit .before _) (keeps_map_rtl _)
  · rw [turnUnits_plain h]
    exact keeps_map_rtl _

variable {R : β → Glyph α τ → Prop}

/-- A row and its source, turned around together. -/
theorem source_turnLine (hkeeps : ∀ c g h, R c g → Keeps g h → R c h) {src : List β}
    {row : List (Glyph α τ)} (hplain : ∀ g ∈ row, g.ruby = .plain)
    (hchain : row.IsChain fun a b => joins a b = true) (h : List.Forall₂ R src row) :
    List.Forall₂ R (turned true (body (turnLine row)).length src) (turnLine row) := by
  rw [← body_append_marker row] at h
  have hbody := List.forall₂_take_append _ _ _ h
  have hmarker := List.forall₂_drop_append _ _ _ h
  rw [body_turnLine hchain, length_turnBody, turned, if_pos rfl, turnLine]
  apply List.rel_append _ hmarker
  exact forall₂_comp (List.forall₂_reverse_iff.mpr hbody)
    (keeps_turnBody fun g hg => hplain g ((body_sublist row).subset hg)) hkeeps

/-- The lines of an ordered text come from the lines of the text. -/
theorem sources_orderLines (s : Style α τ) (hkeeps : ∀ c g h, R c g → Keeps g h → R c h)
    {src : List β} {gs : List (Glyph α τ)} (hplain : ∀ g ∈ gs, g.ruby = .plain)
    (h : List.Forall₂ R src gs) : ∃ srcs, srcs.flatten = src ∧
      List.Forall₂ (fun src row => List.Forall₂ R (turned s.rtl (body row).length src) row) srcs
        (lines (s.orderLines gs)) := by
  rw [← flatten_lines gs] at h
  obtain ⟨srcs, hflat, hrows⟩ := forall₂_flatten_split h
  refine ⟨srcs, hflat, ?_⟩
  unfold Style.orderLines
  cases hrtl : s.rtl with
  | false => exact hrows
  | true =>
    rw [if_pos rfl, lines_turnLines, List.forall₂_map_right_iff]
    have hrow : ∀ row ∈ lines gs, (∀ g ∈ row, g.ruby = .plain) ∧
        row.IsChain fun a b => joins a b = true := by
      intro row hrow
      exact ⟨fun g hg => hplain g (mem_iff_exists_line.mpr ⟨row, hrow, hg⟩),
        List.isChain_of_mem_splitBy hrow⟩
    apply (forall₂_and_right hrows hrow).imp
    exact fun src row hsrc => source_turnLine hkeeps hsrc.2.1 hsrc.2.2 hsrc.1

end Turned

section Cells

variable {τ : Type} {g h : Glyph ℚ τ} {gs row : List (Glyph ℚ τ)} {left first rest : ℚ}

/-- A glyph outside annotated text whose ink fills its advance. -/
structure Glyph.FillsCell (g : Glyph ℚ τ) : Prop where
  ruby : g.ruby = .plain
  nudge : g.nudge = 0
  width : g.width = g.advance
  nonneg : 0 ≤ g.width

theorem Glyph.FillsCell.keeps (hg : g.FillsCell) (hk : Keeps g h) : h.FillsCell where
  ruby := hk.ruby.trans hg.ruby
  nudge := hk.nudge.trans hg.nudge
  width := hk.width.trans (hg.width.trans hk.advance.symm)
  nonneg := hg.nonneg.trans_eq hk.width.symm

theorem Glyph.FillsCell.annotates (hg : g.FillsCell) : g.annotates = false := by
  rw [Glyph.annotates, hg.ruby]
  rfl

/-- The ink of a glyph ends before that of another starts. -/
def Apart (g h : Glyph ℚ τ) : Prop := g.x + g.width ≤ h.x

theorem apart_cursorStep {edge x : ℚ} (hg : g.FillsCell) (hh : h.FillsCell)
    (hjoins : joins g h = true)
    (hreach : (cursorStep edge x g).2.x + g.advance ≤ Scalar.maxExtent) :
    Apart (cursorStep edge x g).2 (cursorStep edge (cursorStep edge x g).1 h).2 := by
  simp only [joins, Bool.and_eq_true, bne_iff_ne] at hjoins
  obtain ⟨hreplace, hbefore⟩ := hjoins
  have hx := x_cursorStep (x := x) (e := edge) hg.annotates hg.nudge
  have hnext := x_cursorStep (x := (cursorStep edge x g).1) (e := edge) hh.annotates hh.nudge
  have hcursor : (cursorStep edge x g).1 = (cursorStep edge x g).2.x + g.advance := by
    rw [cursor_cursorStep hg.annotates hreplace, ← hx, Scalar.smaller, if_pos hreach]
  have hwidth : (cursorStep edge x g).2.width = g.advance := by
    obtain ⟨y, hy⟩ := moved_cursorStep edge x g
    rw [hy]
    exact hg.width
  rw [Apart, hnext, if_neg hbefore, hcursor, hwidth]

/-- On its line every glyph ends before the next one starts. -/
theorem apart_placeAcross (hgs : ∀ g ∈ gs, g.FillsCell)
    (hreach : InReach (placeAcross left first rest gs)) :
    ∀ row ∈ lines (placeAcross left first rest gs), row.IsChain Apart := by
  have hstep : (placeAcross left first rest gs).IsChain fun g h =>
      g.x + g.advance ≤ Scalar.maxExtent → joins g h = true → Apart g h := by
    refine isChain_sweep (fun x g hg h hh hle hjoins => ?_) _
    obtain ⟨y, hy⟩ := moved_cursorStep (left + rest) x g
    obtain ⟨z, hz⟩ := moved_cursorStep (left + rest) (cursorStep (left + rest) x g).1 h
    refine apart_cursorStep (hgs g hg) (hgs h hh) ?_ ?_
    · rw [hy, hz] at hjoins
      exact hjoins
    · rwa [hy] at hle ⊢
  have hcells : ∀ g ∈ placeAcross left first rest gs, g.FillsCell :=
    forall_mem_of_forall₂ (moved_placeAcross ..) (fun _ _ hmoved hg => hg.keeps hmoved.keeps) hgs
  intro row hrow
  rw [← flatten_lines (placeAcross left first rest gs)] at hstep
  have hchain := hstep.infix (List.infix_of_mem_flatten hrow)
  have hjoins := List.isChain_of_mem_splitBy hrow
  rw [List.isChain_iff_getElem] at hchain hjoins ⊢
  intro i hi
  have hmem : row[i] ∈ placeAcross left first rest gs :=
    mem_iff_exists_line.mpr ⟨row, hrow, List.getElem_mem _⟩
  have hreplace : row[i].split ≠ .replace := by
    have h := hjoins i hi
    simp only [joins, Bool.and_eq_true, bne_iff_ne] at h
    exact h.1
  exact hchain i hi (hreach _ hmem (hcells _ hmem).annotates hreplace) (hjoins i hi)

/-- Apart from the next one means apart from all that follow. -/
theorem pairwise_apart (h : row.IsChain Apart) (hcells : ∀ g ∈ row, g.FillsCell) :
    row.Pairwise Apart := by
  induction row with
  | nil => exact .nil
  | cons g row ih =>
    have hrest := ih h.tail fun k hk => hcells k (by simp [hk])
    refine .cons ?_ hrest
    cases row with
    | nil => simp
    | cons k row =>
      have hgk : Apart g k := (List.isChain_cons_cons.mp h).1
      have hwidth := (hcells k (by simp)).nonneg
      intro m hm
      rcases List.mem_cons.mp hm with rfl | hm
      · exact hgk
      · have hkm : Apart k m := List.rel_of_pairwise_cons hrest hm
        unfold Apart at hgk hkm ⊢
        linarith

end Cells

section Ink

variable {τ : Type} {gs row : List (Glyph ℚ τ)}

theorem Scalar.larger_eq_max (a b : ℚ) : Scalar.larger a b = max a b := by
  unfold Scalar.larger
  rcases le_total a b with h | h
  · rw [if_pos h, max_eq_right h]
  · split_ifs with hab
    · rw [max_eq_right hab]
    · rw [max_eq_left h]

theorem Scalar.smaller_eq_min (a b : ℚ) : Scalar.smaller a b = min a b := by
  unfold Scalar.smaller
  rcases le_total a b with h | h
  · rw [if_pos h, min_eq_left h]
  · split_ifs with hab
    · rw [min_eq_left hab]
    · rw [min_eq_right h]

theorem isGreatest_foldl_max (a : ℚ) (l : List ℚ) : IsGreatest {x | x ∈ a :: l} (l.foldl max a) :=
  List.max?_eq_some_iff.mp List.max?_cons'

theorem isLeast_foldl_min (a : ℚ) (l : List ℚ) : IsLeast {x | x ∈ a :: l} (l.foldl min a) :=
  List.min?_eq_some_iff.mp List.min?_cons'

section Extremes

variable {β : Type} (f : β → ℚ) (b : β) (l : List β)

theorem isGreatest_foldl_cons :
    IsGreatest {x | ∃ c ∈ b :: l, f c = x} (l.foldl (fun m c => Scalar.larger m (f c)) (f b)) := by
  simpa [Scalar.larger_eq_max, List.foldl_map, eq_comm] using isGreatest_foldl_max (f b) (l.map f)

theorem isLeast_foldl_cons :
    IsLeast {x | ∃ c ∈ b :: l, f c = x} (l.foldl (fun m c => Scalar.smaller m (f c)) (f b)) := by
  simpa [Scalar.smaller_eq_min, List.foldl_map, eq_comm] using isLeast_foldl_min (f b) (l.map f)

/-- A running maximum that passes over some elements is the greatest of the others and its start. -/
theorem isGreatest_foldl_larger (p : β → Bool) (a : ℚ) :
    IsGreatest {x | x = a ∨ ∃ b ∈ l, p b = false ∧ f b = x}
      (l.foldl (fun m b => if p b then m else Scalar.larger m (f b)) a) := by
  have hkept : l.foldl (fun m b => if p b then m else Scalar.larger m (f b)) a =
      ((l.filter fun b => !p b).map f).foldl max a := by
    rw [List.foldl_map, List.foldl_filter]
    congr
    funext m b
    cases p b <;> simp [Scalar.larger_eq_max]
  rw [hkept]
  simpa [and_assoc] using isGreatest_foldl_max a ((l.filter fun b => !p b).map f)

end Extremes

theorem rightEdge_le_iff {m : ℚ} :
    rightEdge gs ≤ m ↔ 0 ≤ m ∧ ∀ g ∈ gs, g.isInk = true → g.x + g.width ≤ m := by
  apply foldl_iff (Q := (· ≤ m))
  intro edge g
  split_ifs with hink <;> simp [hink, Scalar.larger_eq_max]

theorem lineInk_le_iff {m : ℚ} :
    lineInk row ≤ m ↔ 0 ≤ m ∧ ∀ g ∈ body row, g.annotates = false → g.x + g.width ≤ m := by
  apply foldl_iff (Q := (· ≤ m))
  intro ink g
  split_ifs with hann <;> simp [hann, Scalar.larger_eq_max]

/-- The ink of a line stays left of the right edge of the text. -/
theorem lineInk_le_rightEdge (hjoined : row.IsChain fun a b => joins a b = true)
    (hrow : ∀ g ∈ row, g ∈ gs) : lineInk row ≤ rightEdge gs := by
  obtain ⟨hzero, hedge⟩ := rightEdge_le_iff.mp (le_refl (rightEdge gs))
  refine lineInk_le_iff.mpr ⟨hzero, fun g hg hann => ?_⟩
  have hmem := (body_sublist row).subset hg
  exact hedge g (hrow g hmem) (by simp [isInk, hann, mem_body hjoined hg])

end Ink

section Alignment

variable {τ : Type} {gs row : List (Glyph ℚ τ)} {share : ℚ}

theorem stretchBefore_zero (share : ℚ) : stretchBefore share 0 = 0 := by
  have hhalf : (2 : ℚ)⁻¹.floor = 0 := by decide +kernel
  simp [stretchBefore, Scalar.half, Scalar.floor, hhalf]

theorem stretchBefore_le_succ (hshare : 0 ≤ share) (k : ℕ) :
    stretchBefore share k ≤ stretchBefore share (k + 1) := by
  have hle : (k : ℚ) * share + Scalar.half ≤ ((k + 1 : ℕ) : ℚ) * share + Scalar.half := by
    push_cast
    linarith
  exact Int.cast_le.mpr (Int.floor_le_floor hle)

/-- The spaces of a line are widened one by one, up to its end. -/
theorem stretchLine_eq (share : ℚ) (row : List (Glyph ℚ τ)) :
    stretchLine share row = (sweep (stretchStep share) (0, 0) row).2 := by
  have hmarker : ∀ s, (sweep (stretchStep share) s (marker row)).2 =
      (marker row).map (shiftX s.2) := by
    intro s
    unfold marker
    split_ifs
    · cases row.getLast? <;> rfl
    · rfl
  conv_rhs => rw [← body_append_marker row, sweep_append]
  rw [stretchLine, hmarker]

theorem apart_stretch (hshare : 0 ≤ share) (h : row.IsChain Apart) (k : ℕ) :
    (sweep (stretchStep share) (k, stretchBefore share k) row).2.IsChain Apart := by
  induction row generalizing k with
  | nil => exact .nil
  | cons g row ih =>
    cases row with
    | nil => exact .singleton _
    | cons h' row =>
      rw [List.isChain_cons_cons] at h
      obtain ⟨hgh, hrow⟩ := h
      obtain ⟨n, hn, hle⟩ : ∃ n, (stretchStep share (k, stretchBefore share k) g).1 =
          (n, stretchBefore share n) ∧ stretchBefore share k ≤ stretchBefore share n := by
        unfold stretchStep
        dsimp only
        split_ifs
        · exact ⟨k + 1, rfl, stretchBefore_le_succ hshare k⟩
        · exact ⟨k, rfl, le_rfl⟩
      have hrest := ih hrow n
      rw [sweep_cons] at hrest
      rw [sweep_cons, hn, sweep_cons, List.isChain_cons_cons]
      refine ⟨?_, hrest⟩
      simp only [Apart, stretchStep, shiftX] at hgh ⊢
      linarith

/-- Aligning a line keeps its glyphs apart. -/
theorem apart_alignLine (a : Alignment ℚ) {target : ℚ} (ends : Bool) (h : row.IsChain Apart)
    (hink : lineInk row ≤ target) : (alignLine a target ends row).IsChain Apart := by
  unfold alignLine
  dsimp only
  split_ifs
  · exact h
  · rw [stretchLine_eq, ← stretchBefore_zero]
    exact apart_stretch (div_nonneg (sub_nonneg.mpr hink) (Nat.cast_nonneg _)) h 0
  · refine List.isChain_map_of_isChain _ (fun g h' hgh => ?_) h
    simp only [Apart, shiftX] at hgh ⊢
    linarith

end Alignment

/-- A paragraph whose glyphs are placed along its lines. -/
def Style.placed {τ : Type} (s : Style ℚ τ) (table : ClassTable) (gs : List (Glyph ℚ τ)) :
    List (Glyph ℚ τ) :=
  placeAcross s.left s.firstIndent s.restIndent (s.orderLines (s.breakLines table gs))

/-- No cursor of a text is held back at the largest coordinate. -/
def Style.KeepsInReach {τ : Type} (s : Style ℚ τ) (table : ClassTable)
    (blocks : List (List (Glyph ℚ τ))) : Prop :=
  ∀ gs ∈ blocks, InReach (s.placed table gs)

/-- A line that sets its source glyph by glyph: in one piece, and each glyph clear of the next. -/
structure SetRow {β τ : Type} (R : β → Glyph ℚ τ → Prop) (rtl : Bool) (src : List β)
    (row : List (Glyph ℚ τ)) : Prop where
  order : List.Forall₂ R (turned rtl (body row).length src) row
  joined : row.IsChain fun g h => joins g h = true
  apart : row.IsChain Apart

section SetRow

variable {β τ : Type} {R : β → Glyph ℚ τ → Prop} {rtl : Bool} {src : List β}
  {row row' : List (Glyph ℚ τ)}

theorem SetRow.length_eq (h : SetRow R rtl src row) : src.length = row.length := by
  rw [← h.order.length_eq, length_turned]

/-- A pass over a line keeps the order in which it sets its source. -/
theorem order_pass {S : Glyph ℚ τ → Glyph ℚ τ → Prop} (hkeeps : ∀ c g h, R c g → Keeps g h → R c h)
    (hS : ∀ g h, S g h → Keeps g h) (hsplit : ∀ g h, S g h → h.split = g.split)
    (hrow : List.Forall₂ S row row')
    (h : List.Forall₂ R (turned rtl (body row).length src) row) :
    List.Forall₂ R (turned rtl (body row').length src) row' := by
  rw [← (forall₂_body hsplit hrow).length_eq]
  exact forall₂_comp h hrow fun c g h hc hgh => hkeeps c g h hc (hS g h hgh)

theorem joined_pass {S : Glyph ℚ τ → Glyph ℚ τ → Prop} (hS : ∀ g h, S g h → h.split = g.split)
    (hrow : List.Forall₂ S row row') (h : row.IsChain fun g h => joins g h = true) :
    row'.IsChain fun g h => joins g h = true := by
  refine isChain_of_forall₂ hrow h fun a b c d hac hbd hab => ?_
  rwa [joins, hS a c hac, hS b d hbd]

variable (hcell : ∀ c g, R c g → g.FillsCell) (hkeeps : ∀ c g h, R c g → Keeps g h → R c h)

include hkeeps in
theorem SetRow.align (h : SetRow R rtl src row) (a : Alignment ℚ) {target : ℚ} (ends : Bool)
    (hink : lineInk row ≤ target) : SetRow R rtl src (alignLine a target ends row) where
  order := order_pass hkeeps (fun _ _ => Moved.keeps) (fun _ _ => Moved.split)
    (moved_alignLine a target ends row) h.order
  joined := joined_pass (fun _ _ => Moved.split) (moved_alignLine a target ends row) h.joined
  apart := apart_alignLine a ends h.apart hink

include hcell hkeeps

theorem SetRow.stays (h : SetRow R rtl src row) (hrow : List.Forall₂ Stays row row') :
    SetRow R rtl src row' where
  order := order_pass hkeeps (fun _ _ => Stays.toKeeps) (fun _ _ => Stays.split) hrow h.order
  joined := joined_pass (fun _ _ => Stays.split) hrow h.joined
  apart := by
    have hstill := (List.forall₂_and_left _ _).mpr
      ⟨forall_right_of_forall₂ h.order hcell, hrow⟩
    refine isChain_of_forall₂ hstill h.apart fun a b c d hac hbd hab => ?_
    rwa [Apart, hac.2.x hac.1.annotates, hac.2.width, hbd.2.x hbd.1.annotates]

variable [Scalar τ] {s : Style ℚ τ} {table : ClassTable} {gs : List (Glyph ℚ τ)}

/-- The lines of a paragraph set its source. -/
theorem setRows_layParagraph (h : List.Forall₂ R src gs) (hreach : InReach (s.placed table gs))
    (start : Style.Start ℚ τ) : ∃ srcs, srcs.flatten = src ∧
      List.Forall₂ (SetRow R s.rtl) srcs (lines (s.layParagraph table start gs).2.2) := by
  have hbroken : List.Forall₂ R src (s.breakLines table gs) :=
    forall₂_comp h (resplit_breakLines s table gs) fun c g k hg hgk => hkeeps c g k hg hgk.keeps
  obtain ⟨srcs, hflat, hordered⟩ := sources_orderLines s hkeeps
    (forall_right_of_forall₂ hbroken fun c g hg => (hcell c g hg).ruby) hbroken
  have hcells : ∀ g ∈ s.orderLines (s.breakLines table gs), g.FillsCell := by
    intro g hg
    obtain ⟨row, hrow, hg⟩ := mem_iff_exists_line.mp hg
    apply forall_right_of_forall₂ (Q := fun row => ∀ g ∈ row, g.FillsCell) hordered _ row hrow g hg
    exact fun src row hsrc => forall_right_of_forall₂ hsrc hcell
  have hmoved : List.Forall₂ (List.Forall₂ Moved) (lines (s.orderLines (s.breakLines table gs)))
      (lines (s.placed table gs)) := forall₂_lines (fun _ _ => Moved.split) (moved_placeAcross ..)
  have hjoined : ∀ row ∈ lines (s.placed table gs),
      (row.IsChain fun g h => joins g h = true) ∧ row.IsChain Apart :=
    fun row hrow => ⟨List.isChain_of_mem_splitBy hrow, apart_placeAcross hcells hreach row hrow⟩
  have hset : List.Forall₂ (SetRow R s.rtl) srcs (lines (s.placed table gs)) := by
    refine forall₂_comp hordered (forall₂_and_right hmoved hjoined) fun src row row' hsrc hrow => ?_
    have horder := order_pass hkeeps (fun _ _ => Moved.keeps) (fun _ _ => Moved.split) hrow.1 hsrc
    exact ⟨horder, hrow.2.1, hrow.2.2⟩
  have hfinished := forall₂_lines (fun _ _ => Stays.split) (stays_layParagraph s table start gs)
  exact ⟨srcs, hflat,
    forall₂_comp hset hfinished fun src row row' hrow => hrow.stays hcell hkeeps⟩

/-- The lines of a layout set their parts of the source. -/
theorem setRows_layout {srcs : List (List β)} {blocks : List (List (Glyph ℚ τ))}
    (h : List.Forall₂ (List.Forall₂ R) srcs blocks) (hreach : s.KeepsInReach table blocks)
    (startTime : τ) :
    RowsAt (SetRow R s.rtl) 0 srcs.flatten (s.layout table startTime blocks).glyphs
      ((s.layout table startTime blocks).lines.map Line.span) := by
  have hplaced := rowsAt_sweep (Q := SetRow R s.rtl) (fun _ _ => SetRow.length_eq)
    (fun start src gs hgs => setRows_layParagraph hcell hkeeps hgs.1 hgs.2 start)
    (forall₂_and_right h hreach) ⟨s.top, startTime, 0⟩
  unfold Style.layout
  dsimp only
  rw [map_span_timeLines]
  refine (hplaced.align s.alignment _ ?_).pass (stays_assignIndices 0 _)
    fun src row row' hrow hset => SetRow.stays hcell hkeeps hset hrow
  intro ends src row hrow hset
  refine hset.align hkeeps _ ends ?_
  -- the text area ends right of the ink of every line
  rw [Scalar.larger_eq_max, ← sub_le_iff_le_add']
  apply le_max_of_le_right
  exact sub_le_sub_right (lineInk_le_rightEdge hset.joined hrow) s.left

end SetRow

end Typeset
