import Mathlib.Data.List.Perm.Basic
import Typeset.Layout
import Typeset.Proofs.Lines
import Typeset.Proofs.Sweep

/-!
# What the passes leave alone

Choosing breaks changes splits only. Every pass keeps the character, the metrics and the link of a
glyph, and from the horizontal placement on a glyph on the baseline keeps its position too.
-/

namespace Typeset

theorem forall₂_comp {β γ δ : Type} {R : β → γ → Prop} {S : γ → δ → Prop} {T : β → δ → Prop}
    {l : List β} {m : List γ} {n : List δ} (h : List.Forall₂ R l m) (h' : List.Forall₂ S m n)
    (comp : ∀ a b c, R a b → S b c → T a c) : List.Forall₂ T l n := by
  induction h generalizing n with
  | nil =>
    rw [List.forall₂_nil_left_iff.mp h']
    exact .nil
  | cons hab _ ih =>
    cases h' with
    | cons hbc hrest => exact .cons (comp _ _ _ hab hbc) (ih hrest)

theorem forall₂_trans {β : Type} {R : β → β → Prop} (trans : ∀ a b c, R a b → R b c → R a c)
    {l m n : List β} (h : List.Forall₂ R l m) (h' : List.Forall₂ R m n) : List.Forall₂ R l n :=
  forall₂_comp h h' trans

theorem forall₂_refl {β : Type} {R : β → β → Prop} (refl : ∀ a, R a a) (l : List β) :
    List.Forall₂ R l l :=
  List.forall₂_same.mpr fun a _ => refl a

theorem exists_left_of_forall₂ {β γ : Type} {R : β → γ → Prop} {l : List β} {m : List γ}
    (h : List.Forall₂ R l m) {i : ℕ} {b : γ} (hb : m[i]? = some b) :
    ∃ a, l[i]? = some a ∧ R a b := by
  induction h generalizing i with
  | nil => simp at hb
  | cons hab _ ih =>
    cases i with
    | zero =>
      obtain rfl := Option.some.inj hb
      exact ⟨_, rfl, hab⟩
    | succ i => exact ih hb

theorem exists_mem_of_forall₂ {β γ : Type} {R : β → γ → Prop} {l : List β} {m : List γ}
    (h : List.Forall₂ R l m) {a : β} (ha : a ∈ l) : ∃ b ∈ m, R a b := by
  obtain ⟨i, hi⟩ := List.mem_iff_getElem?.mp ha
  obtain ⟨b, hb, hab⟩ := exists_left_of_forall₂ h.flip hi
  exact ⟨b, List.mem_of_getElem? hb, hab⟩

theorem forall_mem_of_forall₂ {β γ : Type} {R : β → γ → Prop} {P : β → Prop} {Q : γ → Prop}
    {l : List β} {m : List γ} (h : List.Forall₂ R l m) (hR : ∀ a b, R a b → P a → Q b)
    (hl : ∀ a ∈ l, P a) : ∀ b ∈ m, Q b := by
  intro b hb
  obtain ⟨i, hi⟩ := List.mem_iff_getElem?.mp hb
  obtain ⟨a, ha, hab⟩ := exists_left_of_forall₂ h hi
  exact hR a b hab (hl a (List.mem_of_getElem? ha))

theorem forall_right_of_forall₂ {β γ : Type} {R : β → γ → Prop} {Q : γ → Prop} {l : List β}
    {m : List γ} (h : List.Forall₂ R l m) (hR : ∀ a b, R a b → Q b) : ∀ b ∈ m, Q b :=
  forall_mem_of_forall₂ (P := fun _ => True) h (fun a b hab _ => hR a b hab) fun _ _ => trivial

theorem forall₂_and_right {β γ : Type} {R : β → γ → Prop} {P : γ → Prop} {l : List β} {m : List γ}
    (h : List.Forall₂ R l m) (hm : ∀ b ∈ m, P b) : List.Forall₂ (fun a b => R a b ∧ P b) l m := by
  apply ((List.forall₂_and_left _ _).mpr ⟨hm, h.flip⟩).flip.imp
  exact fun a b hab => ⟨hab.2, hab.1⟩

theorem map_eq_of_forall₂ {β γ δ : Type} {R : β → γ → Prop} {f : β → δ} {g : γ → δ} {l : List β}
    {m : List γ} (h : List.Forall₂ R l m) (hR : ∀ a ∈ l, ∀ b, R a b → g b = f a) :
    m.map g = l.map f := by
  induction h with
  | nil => rfl
  | cons hab _ ih =>
    rw [List.map_cons, List.map_cons, hR _ (by simp) _ hab, ih fun a ha => hR a (by simp [ha])]

namespace Glyph

variable {α τ : Type}

/-- A glyph that differs in its split at most. -/
def Resplit (g h : Glyph α τ) : Prop := ∃ split, h = { g with split }

/-- A glyph that differs in its place along the line at most. -/
def Moved (g h : Glyph α τ) : Prop := ∃ x, h = { g with x }

theorem Moved.refl (g : Glyph α τ) : Moved g g := ⟨g.x, rfl⟩

theorem Moved.trans {g h k : Glyph α τ} (hg : Moved g h) (hh : Moved h k) : Moved g k := by
  obtain ⟨_, rfl⟩ := hg
  obtain ⟨x, rfl⟩ := hh
  exact ⟨x, rfl⟩

/-- A glyph that differs in its split at most, and not at all if it annotates. -/
def Rebreaks (g h : Glyph α τ) : Prop :=
  ∃ split, h = { g with split } ∧ (g.annotates = true → split = g.split)

theorem Rebreaks.refl (g : Glyph α τ) : Rebreaks g g := ⟨g.split, rfl, fun _ => rfl⟩

theorem Rebreaks.of_text {g : Glyph α τ} (hann : ¬ g.annotates = true) (split : Split) :
    Rebreaks g { g with split } := ⟨split, rfl, fun h => absurd h hann⟩

theorem Rebreaks.trans {g h k : Glyph α τ} (hg : Rebreaks g h) (hh : Rebreaks h k) :
    Rebreaks g k := by
  obtain ⟨_, rfl, hg⟩ := hg
  obtain ⟨split, rfl, hh⟩ := hh
  exact ⟨split, rfl, fun hann => (hh hann).trans (hg hann)⟩

theorem Rebreaks.resplit {g h : Glyph α τ} (hg : Rebreaks g h) : Resplit g h := by
  obtain ⟨split, rfl, _⟩ := hg
  exact ⟨split, rfl⟩

/-- What a glyph keeps through all passes: the character, its part in annotated text, its metrics,
link and shader. An inline object without an ascent may get one. -/
structure Keeps [Scalar α] (g h : Glyph α τ) : Prop where
  code : h.code = g.code
  ruby : h.ruby = g.ruby
  width : h.width = g.width
  advance : h.advance = g.advance
  descent : h.descent = g.descent
  lineSpacing : h.lineSpacing = g.lineSpacing
  link : h.link = g.link
  shader : h.shader = g.shader
  nudge : h.nudge = g.nudge
  ascent : h.ascent = g.ascent ∨ g.isObject = true ∧ (g.ascent == 0) = true

variable [Scalar α] {g h k : Glyph α τ}

theorem Keeps.trans (hg : Keeps g h) (hh : Keeps h k) : Keeps g k where
  code := hh.code.trans hg.code
  ruby := hh.ruby.trans hg.ruby
  width := hh.width.trans hg.width
  advance := hh.advance.trans hg.advance
  descent := hh.descent.trans hg.descent
  lineSpacing := hh.lineSpacing.trans hg.lineSpacing
  link := hh.link.trans hg.link
  shader := hh.shader.trans hg.shader
  nudge := hh.nudge.trans hg.nudge
  ascent := by
    rcases hg.ascent with h₁ | h₁
    · rcases hh.ascent with h₂ | ⟨hobj, hzero⟩
      · exact .inl (h₂.trans h₁)
      · exact .inr ⟨by rwa [isObject, hg.code] at hobj, h₁ ▸ hzero⟩
    · exact .inr h₁

/-- Positions, splits, times and order may be changed. -/
theorem keeps_with (g : Glyph α τ) (x y : α) (split : Split) (time duration : τ) (index : ℤ)
    (rtl : Bool) : Keeps g { g with x, y, split, time, duration, index, rtl } :=
  ⟨rfl, rfl, rfl, rfl, rfl, rfl, rfl, rfl, rfl, .inl rfl⟩

theorem Keeps.refl (g : Glyph α τ) : Keeps g g := keeps_with ..

theorem Resplit.keeps (h : Resplit g k) : Keeps g k := by
  obtain ⟨split, rfl⟩ := h
  exact keeps_with ..

theorem Moved.keeps (h : Moved g k) : Keeps g k := by
  obtain ⟨x, rfl⟩ := h
  exact keeps_with ..

omit [Scalar α] in
theorem Moved.split (h : Moved g k) : k.split = g.split := by
  obtain ⟨x, rfl⟩ := h
  rfl

/-- What a glyph keeps once it is placed on its line: its content, its split, and its position
unless it is an annotation. -/
structure Stays (g h : Glyph α τ) : Prop extends Keeps g h where
  split : h.split = g.split
  x : g.annotates = false → h.x = g.x

theorem Stays.trans (hg : Stays g h) (hh : Stays h k) : Stays g k where
  toKeeps := hg.toKeeps.trans hh.toKeeps
  split := hh.split.trans hg.split
  x hann := (hh.x (by rwa [annotates, hg.ruby])).trans (hg.x hann)

theorem stays_with (g : Glyph α τ) (y : α) (time duration : τ) (index : ℤ) :
    Stays g { g with y, time, duration, index } :=
  ⟨keeps_with .., rfl, fun _ => rfl⟩

theorem Stays.refl (g : Glyph α τ) : Stays g g := stays_with ..

end Glyph

open Glyph

variable {α τ : Type}

theorem rebreaks_markWestern (gs : List (Glyph α τ)) :
    List.Forall₂ Rebreaks gs (markWestern gs) := by
  apply forall₂_sweep
  intro inBase g _
  unfold westernStep
  dsimp only
  split_ifs with hann
  · exact .refl g
  · exact .of_text hann _
  · exact .of_text hann _
  · exact .of_text hann _
  · exact .refl g

theorem rebreaks_markAnywhere (gs : List (Glyph α τ)) :
    List.Forall₂ Rebreaks gs (markAnywhere gs) := by
  apply forall₂_sweep
  intro inBase g _
  unfold anywhereStep
  dsimp only
  split_ifs with hann
  · exact .refl g
  · exact .of_text hann _
  · exact .of_text hann _
  · exact .of_text hann _

theorem rebreaks_markPairs (classOf : Glyph α τ → BreakClass) (gs : List (Glyph α τ)) :
    List.Forall₂ Rebreaks gs (markPairs classOf gs) := by
  apply forall₂_map_zipIdx
  intro g n
  unfold withMark
  by_cases hann : g.annotates = true
  · rw [if_pos hann]
    exact .refl g
  · rw [if_neg hann]
    split
    · exact .of_text hann _
    · split_ifs
      · exact .refl g
      · exact .of_text hann _

theorem rebreaks_mark (table : ClassTable) (c : Classifier) (gs : List (Glyph α τ)) :
    List.Forall₂ Rebreaks gs (c.mark table gs) := by
  cases c with
  | western => exact rebreaks_markWestern gs
  | anywhere => exact rebreaks_markAnywhere gs
  | pairs profile noIdeographs => exact rebreaks_markPairs _ gs

theorem rebreaks_breakGreedy [Scalar α] (first rest : α) (gs : List (Glyph α τ)) :
    List.Forall₂ Rebreaks gs (breakGreedy first rest gs) := by
  apply forall₂_map_zipIdx
  intro g n
  dsimp only
  split_ifs with hdrop
  · refine .of_text (fun hann => ?_) _
    simp [isOpportunity, hann] at hdrop
  · exact .refl g

theorem resplit_clearSplits (gs : List (Glyph α τ)) :
    List.Forall₂ Resplit gs (clearSplits gs) := by
  rw [clearSplits, List.forall₂_map_right_iff]
  exact forall₂_refl (fun g => ⟨_, rfl⟩) gs

theorem resplit_breakLines [Scalar α] [Scalar τ] (s : Style α τ) (table : ClassTable)
    (gs : List (Glyph α τ)) : List.Forall₂ Resplit gs (s.breakLines table gs) := by
  unfold Style.breakLines
  cases s.mode with
  | greedy =>
    exact forall₂_comp (rebreaks_mark ..) (rebreaks_breakGreedy ..) fun _ _ _ hg hh =>
      (hg.trans hh).resplit
  | unbroken => exact resplit_clearSplits gs

/-- What neighbours of a piece share, all of the piece share. -/
theorem eq_of_mem_splitBy {β γ : Type} {r : β → β → Bool} {f : β → γ}
    (hr : ∀ a b, r a b = true → f a = f b) {l piece : List β} (hpiece : piece ∈ l.splitBy r) :
    ∀ a ∈ piece, ∀ b ∈ piece, f a = f b := by
  have hchain : (piece.map f).IsChain (· = ·) := by
    apply (List.isChain_map f).mpr
    exact (List.isChain_of_mem_splitBy hpiece).imp hr
  intro a ha b hb
  exact (List.isChain_iff_pairwise.mp hchain).forall_of_forall (fun _ _ => rfl)
    (List.mem_map_of_mem ha) (List.mem_map_of_mem hb)

/-- The glyphs of one run play the same part. -/
theorem ruby_of_mem_run {gs run : List (Glyph α τ)} (hrun : run ∈ gs.splitBy sameRun) :
    ∀ g ∈ run, ∀ h ∈ run, g.ruby = h.ruby := by
  refine eq_of_mem_splitBy (fun a b hab => ?_) hrun
  simp only [sameRun, Bool.and_eq_true, beq_iff_eq] at hab
  exact hab.1

variable [Scalar α]

/-- Placing a glyph on its line changes its position and nothing else. -/
theorem moved_cursorStep (edge x : α) (g : Glyph α τ) : Moved g (cursorStep edge x g).2 := by
  unfold cursorStep
  split_ifs
  · exact ⟨g.x, rfl⟩
  · split <;> exact ⟨_, rfl⟩

theorem moved_placeAcross (start first rest : α) (gs : List (Glyph α τ)) :
    List.Forall₂ Moved gs (placeAcross start first rest gs) :=
  forall₂_sweep (fun x g _ => moved_cursorStep _ x g) _

/-- Stacking lines writes baselines, and ascents of inline objects without one. -/
theorem written_stack [Zero τ] (spacing : LineSpacing α) (pos : α × ℕ)
    (rows : List (List (Glyph α τ))) :
    List.Forall₂ (List.Forall₂ fun g h => ∃ y ascent, h = { g with y, ascent } ∧
      (ascent = g.ascent ∨ g.isObject = true ∧ (g.ascent == 0) = true)) rows
      ((sweep (stackStep spacing) pos rows).2.map Prod.snd) := by
  rw [List.forall₂_map_right_iff]
  apply forall₂_sweep
  intro pos row _
  rw [stackStep, List.forall₂_map_right_iff]
  apply forall₂_refl
  intro g
  refine ⟨_, _, rfl, ?_⟩
  split_ifs with hzero
  · exact .inr (by simpa using hzero)
  · exact .inl rfl

theorem written_placeDown [Zero τ] (spacing : LineSpacing α) (y : α) (gs : List (Glyph α τ)) :
    List.Forall₂ (fun g h => ∃ y ascent, h = { g with y, ascent } ∧
      (ascent = g.ascent ∨ g.isObject = true ∧ (g.ascent == 0) = true))
      gs (placeDown spacing y gs).glyphs := by
  have h := List.rel_flatten (written_stack spacing (y, 0) (lines gs))
  rwa [flatten_lines, ← List.flatMap_def] at h

theorem stays_placeDown [Zero τ] (spacing : LineSpacing α) (y : α) (gs : List (Glyph α τ)) :
    List.Forall₂ Stays gs (placeDown spacing y gs).glyphs := by
  apply (written_placeDown spacing y gs).imp
  rintro g _ ⟨y, ascent, rfl, hascent⟩
  exact ⟨⟨rfl, rfl, rfl, rfl, rfl, rfl, rfl, rfl, rfl, hascent⟩, rfl, fun _ => rfl⟩

/-- The width of a run depends on advances and ink alone. -/
theorem runWidth_map {w : Glyph α τ → Glyph α τ} (hadvance : ∀ g, (w g).advance = g.advance)
    (hwidth : ∀ g, (w g).width = g.width) (run : List (Glyph α τ)) :
    runWidth (run.map w) = runWidth run := by
  unfold runWidth
  rw [List.foldl_map, List.getLast?_map]
  simp only [hadvance]
  cases run.getLast? with
  | none => rfl
  | some last => simp only [Option.map_some, hadvance, hwidth]

/-- Placing annotations writes their positions. -/
theorem written_placeAnnotations (offsets : RubyOffsets α) (gs : List (Glyph α τ)) :
    List.Forall₂ (fun g h => ∃ x y, h = { g with x, y } ∧ (g.annotates = false → h = g))
      gs (placeAnnotations offsets gs) := by
  have hrow : List.Forall₂ (List.Forall₂ fun g h : Glyph α τ =>
      ∃ x y, h = { g with x, y } ∧ (g.annotates = false → h = g)) (gs.splitBy sameRun)
      (sweep (annotateStep offsets) .origin (gs.splitBy sameRun)).2 := by
    refine forall₂_sweep (fun base row hrow => ?_) _
    unfold annotateStep
    cases row with
    | nil => exact .nil
    | cons g rest =>
      dsimp only
      split_ifs with hann
      · dsimp only [centreRun]
        refine forall₂_sweep (fun x h hh => ⟨_, _, rfl, fun hnot => ?_⟩) _
        rw [annotates, ruby_of_mem_run hrow h hh g (by simp), ← annotates, hann] at hnot
        cases hnot
      · exact forall₂_refl (fun g => ⟨g.x, g.y, rfl, fun _ => rfl⟩) _
  have h := List.rel_flatten hrow
  rwa [List.flatten_splitBy] at h

theorem stays_placeAnnotations (offsets : RubyOffsets α) (gs : List (Glyph α τ)) :
    List.Forall₂ Stays gs (placeAnnotations offsets gs) := by
  apply (written_placeAnnotations offsets gs).imp
  rintro g _ ⟨x, y, rfl, htext⟩
  exact ⟨keeps_with .., rfl, fun hann => congrArg Glyph.x (htext hann)⟩

omit [Scalar α] in
/-- Timing writes times. -/
theorem written_assignTimes [Scalar τ] (start rate : τ) (gs : List (Glyph α τ)) :
    List.Forall₂ (fun g h => ∃ time duration, h = { g with time, duration } ∧
      (g.annotates = true → time = untimed)) gs (assignTimes start rate gs).2 := by
  apply forall₂_sweep
  intro t g _
  unfold timeStep
  split_ifs with hann
  · exact ⟨_, _, rfl, fun _ => rfl⟩
  · exact ⟨_, _, rfl, fun h => absurd h hann⟩

theorem stays_assignTimes [Scalar τ] (start rate : τ) (gs : List (Glyph α τ)) :
    List.Forall₂ Stays gs (assignTimes start rate gs).2 := by
  apply (written_assignTimes start rate gs).imp
  rintro g _ ⟨time, duration, rfl, _⟩
  exact stays_with ..

omit [Scalar α] in
/-- Numbering writes places in the order of reveal, where there is a time. -/
theorem written_assignIndices [Scalar τ] (start : ℤ) (gs : List (Glyph α τ)) :
    List.Forall₂ (fun g h => ∃ index, h = { g with index } ∧ (g.isTimed = false → index = g.index))
      gs (assignIndices start gs).2 := by
  apply forall₂_sweep
  intro n g _
  unfold indexStep
  split_ifs with htimed
  · exact ⟨n, rfl, fun h => by simp [htimed] at h⟩
  · exact ⟨g.index, rfl, fun _ => rfl⟩

theorem stays_assignIndices [Scalar τ] (start : ℤ) (gs : List (Glyph α τ)) :
    List.Forall₂ Stays gs (assignIndices start gs).2 := by
  apply (written_assignIndices start gs).imp
  rintro g _ ⟨index, rfl, _⟩
  exact stays_with ..

theorem moved_alignLine (a : Alignment α) (target : α) (ends : Bool) (row : List (Glyph α τ)) :
    List.Forall₂ Moved row (alignLine a target ends row) := by
  have hshift : ∀ (dx : α) (l : List (Glyph α τ)), List.Forall₂ Moved l (l.map (shiftX dx)) := by
    intro dx l
    rw [List.forall₂_map_right_iff]
    exact List.forall₂_same.mpr fun g _ => ⟨_, rfl⟩
  unfold alignLine
  dsimp only
  split_ifs
  · exact forall₂_refl Moved.refl row
  · unfold stretchLine
    dsimp only
    conv_lhs => rw [← body_append_marker row]
    exact List.rel_append (forall₂_sweep (fun _ g _ => ⟨_, rfl⟩) _) (hshift _ _)
  · exact hshift _ row

/-- Aligning lines moves glyphs along them and changes nothing else. -/
theorem moved_alignLines (a : Alignment α) (target : α) (rows : List (Line α τ))
    (gs : List (Glyph α τ)) (h : ∀ l ∈ rows, l.span.start ≤ l.span.stop) :
    List.Forall₂ Moved gs (alignLines a target rows gs) := by
  unfold alignLines
  split_ifs
  · exact forall₂_refl Moved.refl gs
  · induction rows generalizing gs with
    | nil => exact forall₂_refl Moved.refl gs
    | cons l rows ih =>
      have hle := h l (by simp)
      refine forall₂_trans (R := Moved) (fun _ _ _ => Moved.trans) ?_
        (ih _ fun k hk => h k (by simp [hk]))
      conv_lhs => rw [← Span.take_append_slice_append_drop hle gs]
      exact List.rel_append (forall₂_refl Moved.refl _)
        (List.rel_append (moved_alignLine ..) (forall₂_refl Moved.refl _))

/-- The areas of a line show nothing of a change that no area of a run shows. -/
theorem lineAreas_map [Scalar τ] {w : Glyph α τ → Glyph α τ}
    {u : LinkArea α τ → LinkArea α τ} {l l' : Line α τ} (hsplit : ∀ g, (w g).split = g.split)
    (hlink : ∀ g, (w g).link = g.link)
    (harea : ∀ run, (runArea? l' (run.map w)).map u = (runArea? l run).map u)
    (row : List (Glyph α τ)) : (lineAreas l' (row.map w)).map u = (lineAreas l row).map u := by
  have hshown : (row.map w).filter (fun g => g.split != .replace) =
      (row.filter fun g => g.split != .replace).map w := by
    rw [List.filter_map]
    simp only [Function.comp_def, hsplit]
  have hruns : ∀ gs : List (Glyph α τ),
      (gs.map w).splitBy sameLink = (gs.splitBy sameLink).map (List.map w) := by
    intro gs
    rw [← map_splitBy]
    simp only [sameLink, hlink]
    rfl
  rw [lineAreas, hshown, hruns, List.filterMap_map, List.map_filterMap, lineAreas,
    List.map_filterMap]
  exact List.filterMap_congr fun run _ => harea run

theorem keeps_alignLines (a : Alignment α) (target : α) (rows : List (Line α τ))
    (gs : List (Glyph α τ)) (h : ∀ l ∈ rows, l.span.start ≤ l.span.stop) :
    List.Forall₂ Keeps gs (alignLines a target rows gs) :=
  (moved_alignLines a target rows gs h).imp fun _ _ => Moved.keeps

end Typeset
