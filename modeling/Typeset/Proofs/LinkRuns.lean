import Typeset.Proofs.Centring
import Typeset.Proofs.Clock

/-!
# Areas of link runs

What a line shows of a text, that is all but replaced glyphs, falls into runs of one link each that
neighbour other links. The areas of a line are those of its runs, one for each run inside a link, so
every linked glyph lies in an area of its link on its line.
-/

namespace Typeset

open Glyph

section Times

variable {τ : Type} [Scalar τ] [TimeOrder τ] {ts : List τ} {s t : τ}

/-- The earliest of the times from 0 on, or 0 where there are none. -/
def IsEarliest (ts : List τ) (t : τ) : Prop :=
  (t ∈ ts ∧ 0 ≤ t ∧ ∀ u ∈ ts, 0 ≤ u → t ≤ u) ∨ t = 0 ∧ ∀ u ∈ ts, ¬ 0 ≤ u

theorem le_refl_time (ht : 0 ≤ t) : t ≤ t := (TimeOrder.le_total t t ht ht).elim id id

theorem smaller_spec (hs : 0 ≤ s) (ht : 0 ≤ t) : (Scalar.smaller s t = s ∨ Scalar.smaller s t = t) ∧
    Scalar.smaller s t ≤ s ∧ Scalar.smaller s t ≤ t := by
  unfold Scalar.smaller
  by_cases hle : s ≤ t
  · simp [hle, le_refl_time hs]
  · have hge := (TimeOrder.le_total s t hs ht).resolve_left hle
    simp [hle, hge, le_refl_time ht]

/-- Taking the smaller time at every step leaves one that no other comes before. -/
theorem foldl_smaller_le (ht : 0 ≤ t) (hts : ∀ u ∈ ts, 0 ≤ u) :
    ts.foldl Scalar.smaller t ∈ t :: ts ∧ ∀ u ∈ t :: ts, ts.foldl Scalar.smaller t ≤ u := by
  induction ts generalizing t with
  | nil => simp [le_refl_time ht]
  | cons s ts ih =>
    obtain ⟨hs, hrest⟩ := List.forall_mem_cons.mp hts
    obtain ⟨heither, hle, hle'⟩ := smaller_spec ht hs
    have hmin : 0 ≤ Scalar.smaller t s := by rcases heither with h | h <;> rwa [h]
    obtain ⟨hmem, hleast⟩ := ih hmin hrest
    obtain ⟨hfirst, hlater⟩ := List.forall_mem_cons.mp hleast
    rw [List.foldl_cons]
    generalize ts.foldl Scalar.smaller (Scalar.smaller t s) = m at hmem hfirst hlater
    have hpos : 0 ≤ m := by
      rcases List.mem_cons.mp hmem with rfl | hm
      · exact hmin
      · exact hrest m hm
    constructor
    · rcases List.mem_cons.mp hmem with rfl | hm
      · rcases heither with h | h <;> simp [h]
      · simp [hm]
    · rw [List.forall_mem_cons, List.forall_mem_cons]
      exact ⟨TimeOrder.le_trans _ _ t hpos hmin ht hfirst hle,
        TimeOrder.le_trans _ _ s hpos hmin hs hfirst hle', hlater⟩

theorem isEarliest_earliest (ts : List τ) :
    IsEarliest ts (earliest (ts.filter fun t => decide (0 ≤ t))) := by
  have hfilter : ∀ u, u ∈ (ts.filter fun t => decide (0 ≤ t)) ↔ u ∈ ts ∧ 0 ≤ u := by simp
  cases hkept : ts.filter fun t => decide (0 ≤ t) with
  | nil =>
    rw [hkept] at hfilter
    exact .inr ⟨rfl, fun u hu hpos => by simpa using (hfilter u).mpr ⟨hu, hpos⟩⟩
  | cons t rest =>
    rw [hkept] at hfilter
    have hpos : ∀ u ∈ t :: rest, 0 ≤ u := fun u hu => ((hfilter u).mp hu).2
    obtain ⟨ht, hrest⟩ := List.forall_mem_cons.mp hpos
    obtain ⟨hmem, hleast⟩ := foldl_smaller_le ht hrest
    obtain ⟨hts, hnonneg⟩ := (hfilter _).mp hmem
    exact .inl ⟨hts, hnonneg, fun u hu hu' => hleast u ((hfilter u).mpr ⟨hu, hu'⟩)⟩

end Times

section Cut

variable {α τ : Type} {row : List (Glyph α τ)} {runs : List (List (Glyph α τ))}

/-- What a line shows: all but replaced glyphs. -/
def visible (row : List (Glyph α τ)) : List (Glyph α τ) := row.filter fun g => g.split != .replace

/-- A row falls into runs of one link each, as long as they go. -/
structure CutAtLinks (row : List (Glyph α τ)) (runs : List (List (Glyph α τ))) : Prop where
  flatten : runs.flatten = row
  nonempty : ∀ run ∈ runs, run ≠ []
  inside : ∀ run ∈ runs, ∀ g ∈ run, ∀ k ∈ run, g.link = k.link
  between : runs.IsChain fun run run' => ∀ g ∈ run, ∀ k ∈ run', g.link ≠ k.link

/-- A row falls into link runs in one way. -/
theorem cutAtLinks_iff : CutAtLinks row runs ↔ row.splitBy sameLink = runs := by
  have hsame : ∀ g k : Glyph α τ, sameLink g k = true ↔ g.link = k.link := by simp [sameLink]
  constructor
  · rintro ⟨rfl, hnonempty, hinside, hbetween⟩
    refine List.splitBy_eq_iff.mpr ⟨rfl, fun h => hnonempty [] h rfl, fun run hrun => ?_, ?_⟩
    · apply List.Pairwise.isChain
      apply List.pairwise_of_forall_mem_list
      intro g hg k hk
      exact (hsame g k).mpr (hinside run hrun g hg k hk)
    · refine hbetween.imp_of_mem_imp fun run run' hrun hrun' h => ?_
      refine ⟨hnonempty run hrun, hnonempty run' hrun', ?_⟩
      rw [Bool.eq_false_iff, ne_eq, hsame]
      exact h _ (List.getLast_mem _) _ (List.head_mem _)
  · rintro rfl
    have hinside : ∀ run ∈ row.splitBy sameLink, ∀ g ∈ run, ∀ k ∈ run, g.link = k.link :=
      fun run hrun => eq_of_mem_splitBy (fun g k => (hsame g k).mp) hrun
    refine ⟨List.flatten_splitBy .., fun run hrun => List.ne_nil_of_mem_splitBy hrun, hinside, ?_⟩
    refine (List.isChain_getLast_head_splitBy ..).imp_of_mem_imp fun run run' hrun hrun' h => ?_
    obtain ⟨hne, hne', hdiffer⟩ := h
    rw [Bool.eq_false_iff, ne_eq, hsame] at hdiffer
    intro g hg k hk
    rwa [hinside run hrun g hg _ (List.getLast_mem hne),
      hinside run' hrun' k hk _ (List.head_mem hne')]

end Cut

section Areas

variable {τ : Type} [Scalar τ] [TimeOrder τ] {l : Line ℚ τ} {row run : List (Glyph ℚ τ)}
  {a : LinkArea ℚ τ}

/-- The area of a run inside one link: as high as its line, as wide as its glyphs reach, and shown
with the earliest of them. -/
structure AreaOf (l : Line ℚ τ) (run : List (Glyph ℚ τ)) (a : LinkArea ℚ τ) : Prop where
  id : ∀ g ∈ run, g.link = a.id
  top : a.y = l.top
  height : a.height = l.height
  extent : HasExtent run a.x (a.x + a.width)
  time : IsEarliest (run.map Glyph.time) a.time

/-- Whether a run is inside a link. -/
def linked (run : List (Glyph ℚ τ)) : Bool := run.any fun g => g.link != 0

/-- The areas of a line: one for each link run of what it shows, in their order. -/
structure ListsLinks (l : Line ℚ τ) (row : List (Glyph ℚ τ)) (areas : List (LinkArea ℚ τ)) :
    Prop where
  cut : ∃ runs, CutAtLinks (visible row) runs
  runs : ∀ runs, CutAtLinks (visible row) runs → List.Forall₂ (AreaOf l) (runs.filter linked) areas
  within : ∀ g ∈ row, g.split ≠ .replace → g.link ≠ 0 → ∃ a ∈ areas, a.id = g.link ∧
    a.y = l.top ∧ a.height = l.height ∧ a.x ≤ g.x ∧ g.x + g.width ≤ a.x + a.width

omit [Scalar τ] [TimeOrder τ] in
theorem hasExtent_runArea (g : Glyph ℚ τ) (rest : List (Glyph ℚ τ)) :
    HasExtent (g :: rest) (runLeft g rest) (runRight g rest) := by
  have h := hasExtent_foldl g rest
  rwa [foldl_extend] at h

/-- A run of one link has an area if it is inside a link, and only then. -/
theorem runArea_spec (hne : run ≠ []) (hlink : ∀ g ∈ run, ∀ k ∈ run, g.link = k.link) :
    (linked run = true ∧ ∃ a, runArea? l run = some a ∧ AreaOf l run a) ∨
      (linked run = false ∧ runArea? l run = none) := by
  obtain ⟨g, rest, rfl⟩ := List.exists_cons_of_ne_nil hne
  have hfirst : ∀ k ∈ g :: rest, k.link = g.link := fun k hk => hlink k hk g (by simp)
  unfold runArea?
  by_cases hzero : g.link = 0
  · refine .inr ⟨?_, if_pos hzero⟩
    simpa only [linked, List.any_eq_false, bne_iff_ne, not_not, hzero] using hfirst
  · refine .inl ⟨by simp [linked, hzero], _, if_neg hzero, hfirst, rfl, rfl, ?_, ?_⟩
    · rw [add_sub_cancel]
      exact hasExtent_runArea g rest
    · exact isEarliest_earliest _

theorem areas_of_runs {runs : List (List (Glyph ℚ τ))} (hne : ∀ run ∈ runs, run ≠ [])
    (hlink : ∀ run ∈ runs, ∀ g ∈ run, ∀ k ∈ run, g.link = k.link) :
    List.Forall₂ (AreaOf l) (runs.filter linked) (runs.filterMap (runArea? l)) := by
  induction runs with
  | nil => exact .nil
  | cons run runs ih =>
    rw [List.forall_mem_cons] at hne hlink
    have hrest := ih hne.2 hlink.2
    rcases runArea_spec (l := l) hne.1 hlink.1 with ⟨hlinked, a, ha, harea⟩ | ⟨hlinked, hnone⟩
    · rw [List.filter_cons_of_pos hlinked, List.filterMap_cons_some ha]
      exact .cons harea hrest
    · rw [List.filter_cons_of_neg (by simp [hlinked]), List.filterMap_cons_none hnone]
      exact hrest

/-- Each line lists the runs of its links. -/
theorem listsLinks_lineAreas (l : Line ℚ τ) (row : List (Glyph ℚ τ)) :
    ListsLinks l row (lineAreas l row) := by
  have hruns : ∀ runs, CutAtLinks (visible row) runs →
      List.Forall₂ (AreaOf l) (runs.filter linked) (lineAreas l row) := by
    intro runs hcut
    rw [lineAreas, ← visible, cutAtLinks_iff.mp hcut]
    exact areas_of_runs hcut.nonempty hcut.inside
  have hcut : CutAtLinks (visible row) ((visible row).splitBy sameLink) := cutAtLinks_iff.mpr rfl
  refine ⟨⟨_, hcut⟩, hruns, fun g hg hsplit hlink => ?_⟩
  have hvisible : g ∈ ((visible row).splitBy sameLink).flatten := by
    rw [hcut.flatten, visible, List.mem_filter]
    exact ⟨hg, by simpa using hsplit⟩
  obtain ⟨run, hrun, hgrun⟩ := List.mem_flatten.mp hvisible
  have hlinked : linked run = true := by
    rw [linked, List.any_eq_true]
    exact ⟨g, hgrun, by simpa using hlink⟩
  obtain ⟨i, hi⟩ := List.mem_iff_getElem?.mp (List.mem_filter.mpr ⟨hrun, hlinked⟩)
  obtain ⟨a, ha, harea⟩ := exists_left_of_forall₂ (hruns _ hcut).flip hi
  exact ⟨a, List.mem_of_getElem? ha, (harea.id g hgrun).symm, harea.top, harea.height,
    harea.extent.left.2 ⟨g, hgrun, rfl⟩, harea.extent.right.2 ⟨g, hgrun, rfl⟩⟩

end Areas

/-- The areas of links are those of the link runs, line by line. -/
theorem linkAreas_lists {τ : Type} [Scalar τ] [TimeOrder τ] {gs : List (Glyph ℚ τ)}
    {lines : List (Line ℚ τ)} (hfits : ∀ l ∈ lines, l.span.fits gs.length = true) :
    ∃ areas : List (List (LinkArea ℚ τ)), linkAreas? gs lines = some areas.flatten ∧
      List.Forall₂ (fun l as => ListsLinks l (l.span.slice gs) as) lines areas := by
  refine ⟨lines.map fun l => lineAreas l (l.span.slice gs), ?_, ?_⟩
  · rw [linkAreas?, List.all_eq_true.mpr hfits, if_pos rfl, linkAreas, List.flatMap_def]
  · rw [List.forall₂_map_right_iff]
    exact List.forall₂_same.mpr fun l _ => listsLinks_lineAreas l _

/-- On the first line a letter, a link around a replaced space with an untimed letter in front of
it, and a second link right behind; the second link goes on in the next line. -/
def twoLinks : List (Glyph ℚ ℚ) :=
  [.ofCode 97 10, { (.ofCode 98 10 : Glyph ℚ ℚ) with x := 10, link := 1, time := -1 },
    { (.ofCode 32 10 : Glyph ℚ ℚ) with x := 20, split := .replace },
    { (.ofCode 99 10 : Glyph ℚ ℚ) with x := 20, link := 1, time := 3 },
    { (.ofCode 100 10 : Glyph ℚ ℚ) with x := 30, link := 2, time := 4 },
    { (.ofCode 101 10 : Glyph ℚ ℚ) with link := 2, time := -1 }]

/-- The lines of the two links. -/
def linkLines : List (Line ℚ ℚ) := [⟨0, 8, 10, ⟨0, 5⟩, 0, false⟩, ⟨12, 20, 10, ⟨5, 6⟩, 0, true⟩]

theorem linkAreas_lists_twoLinks : ∃ areas : List (List (LinkArea ℚ ℚ)),
    linkAreas? twoLinks linkLines = some areas.flatten ∧
      areas.flatten.map (fun a => (a.id, a.x, a.y, a.width, a.time)) =
        [(1, 10, 0, 20, 3), (2, 30, 0, 10, 4), (2, 0, 12, 10, 0)] ∧
      List.Forall₂ (fun l as => ListsLinks l (l.span.slice twoLinks) as) linkLines areas := by
  have hfits : ∀ l ∈ linkLines, l.span.fits twoLinks.length = true := by decide
  obtain ⟨areas, hareas, hlists⟩ := linkAreas_lists hfits
  have hshown : (linkAreas? twoLinks linkLines).map
      (List.map fun a => (a.id, a.x, a.y, a.width, a.time)) =
        some [(1, 10, 0, 20, 3), (2, 30, 0, 10, 4), (2, 0, 12, 10, 0)] := by
    decide +kernel
  rw [hareas, Option.map_some, Option.some.injEq] at hshown
  exact ⟨areas, hareas, hshown, hlists⟩

end Typeset
