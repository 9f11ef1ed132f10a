import Typeset.Proofs.Fill
import Typeset.Proofs.Lines

/-!
# The lines that greedy breaks leave

The breaks taken are exactly the cuts of the broken text, so each of its lines is one that the walk
has filled. A line ends early only if a glyph forces it, as late as may be, and no other choice of
breaks that holds every line to its budget makes do with fewer lines.
-/

namespace Typeset

namespace Glyph

variable {τ : Type} {gs : List (Glyph ℚ τ)} {first rest : ℚ} {keep : ℕ → Bool}

/-- Annotations are no places to break at. -/
def BreaksInText (gs : List (Glyph ℚ τ)) : Prop :=
  ∀ g ∈ gs, g.annotates = true → g.split ≠ .before ∧ g.split ≠ .replace

theorem BreaksInText.isOpportunity (h : BreaksInText gs) {g : Glyph ℚ τ} (hg : g ∈ gs)
    (hsplit : g.split = .before ∨ g.split = .replace) : g.isOpportunity = true := by
  have hann : g.annotates = false := by
    by_contra hann
    obtain ⟨hb, hr⟩ := h g hg (by simpa using hann)
    exact hsplit.elim hb hr
  exact isOpportunity_iff.mpr ⟨hann, hsplit⟩

/-- The text with some of the places to break at kept and the others removed. -/
def keepBreaks (keep : ℕ → Bool) (gs : List (Glyph ℚ τ)) : List (Glyph ℚ τ) :=
  gs.zipIdx.map fun gi =>
    if gi.1.isOpportunity && !keep gi.2 then { gi.1 with split := .none } else gi.1

theorem breakGreedy_eq_keepBreaks (first rest : ℚ) (gs : List (Glyph ℚ τ)) :
    breakGreedy first rest gs = keepBreaks (takenBreaks first rest gs).contains gs := rfl

@[simp] theorem length_keepBreaks : (keepBreaks keep gs).length = gs.length := by
  simp [keepBreaks]

theorem getElem?_keepBreaks (i : ℕ) : (keepBreaks keep gs)[i]? = gs[i]?.map fun g =>
    if g.isOpportunity && !keep i then { g with split := .none } else g := by
  simp [keepBreaks, List.getElem?_map, List.getElem?_zipIdx, Function.comp_def]

/-- A glyph still breaks the text if it did before and was kept. -/
theorem split_keepBreaks (h : BreaksInText gs) {i : ℕ} {g k : Glyph ℚ τ} (hg : gs[i]? = some g)
    (hk : (keepBreaks keep gs)[i]? = some k) {split : Split}
    (hsplit : split = .before ∨ split = .replace) :
    k.split = split ↔ g.split = split ∧ keep i = true := by
  rw [getElem?_keepBreaks, hg, Option.map_some] at hk
  obtain rfl := Option.some.inj hk
  have hopp : g.split = split → g.isOpportunity = true := by
    rintro rfl
    exact h.isOpportunity (List.mem_of_getElem? hg) hsplit
  by_cases hkeep : keep i = true
  · simp [hkeep]
  · rw [Bool.not_eq_true] at hkeep
    by_cases hg' : g.isOpportunity = true
    · rcases hsplit with rfl | rfl <;> simp [hkeep, hg']
    · have hne : g.split ≠ split := fun heq => hg' (hopp heq)
      simp [hkeep, hg', hne]

theorem isCut_keepBreaks (h : BreaksInText gs) {b : ℕ} (hpos : 0 < b) (hlt : b < gs.length) :
    IsCut (keepBreaks keep gs) b ↔
      ∃ p g, gs[p]? = some g ∧ g.isOpportunity = true ∧ keep p = true ∧ resumeAt gs p = b := by
  obtain ⟨c, rfl⟩ : ∃ c, b = c + 1 := ⟨b - 1, by omega⟩
  obtain ⟨g, hg⟩ : ∃ g, gs[c]? = some g := ⟨gs[c], List.getElem?_eq_getElem _⟩
  obtain ⟨k, hk⟩ : ∃ k, gs[c + 1]? = some k := ⟨gs[c + 1], List.getElem?_eq_getElem _⟩
  obtain ⟨g', hg'⟩ : ∃ g', (keepBreaks keep gs)[c]? = some g' :=
    ⟨_, List.getElem?_eq_getElem (by simp; omega)⟩
  obtain ⟨k', hk'⟩ : ∃ k', (keepBreaks keep gs)[c + 1]? = some k' :=
    ⟨_, List.getElem?_eq_getElem (by simp; omega)⟩
  rw [isCut_succ_iff hg' hk', split_keepBreaks h hg hg' (.inr rfl),
    split_keepBreaks h hk hk' (.inl rfl)]
  constructor
  · rintro (⟨hr, hkeep⟩ | ⟨hb, hkeep⟩)
    · exact ⟨c, g, hg, h.isOpportunity (List.mem_of_getElem? hg) (.inr hr), hkeep,
        resumeAt_of_replace hg hr⟩
    · exact ⟨c + 1, k, hk, h.isOpportunity (List.mem_of_getElem? hk) (.inl hb), hkeep,
        resumeAt_of_before hk hb⟩
  · rintro ⟨p, t, ht, hopp, hkeep, hres⟩
    rcases (isOpportunity_iff.mp hopp).2 with hb | hr
    · rw [resumeAt_of_before ht hb] at hres
      rw [hres, hk] at ht
      obtain rfl := Option.some.inj ht
      exact .inr ⟨hb, hres ▸ hkeep⟩
    · rw [resumeAt_of_replace ht hr] at hres
      obtain rfl := Nat.succ.inj hres
      rw [hg] at ht
      obtain rfl := Option.some.inj ht
      exact .inl ⟨hr, hkeep⟩

/-- The first of two values on the line at the start of a text, the second on the others. -/
def onLine (first rest : ℚ) (start : ℕ) : ℚ := if start = 0 then first else rest

theorem Filled.of_append {newer older : List ℕ} (h : Filled gs first rest (newer ++ older)) :
    Filled gs first rest older := by
  induction newer with
  | nil => exact h
  | cons _ _ ih => exact ih h.2.2.2.2

theorem Filled.resumeAt_le {taken : List ℕ} (h : Filled gs first rest taken) {p : ℕ}
    (hp : p ∈ taken) : resumeAt gs p ≤ openStart gs taken := by
  induction taken with
  | nil => cases hp
  | cons q older ih =>
    obtain ⟨_, hlt, _, _, holder⟩ := h
    rcases List.mem_cons.mp hp with rfl | hp
    · exact le_rfl
    · exact (ih holder hp).trans hlt.le

theorem Filled.resumeAt_lt {newer older : List ℕ} {p q : ℕ}
    (h : Filled gs first rest (newer ++ p :: older)) (hq : q ∈ newer) :
    resumeAt gs p < resumeAt gs q := by
  induction newer with
  | nil => cases hq
  | cons r newer ih =>
    obtain ⟨_, hlt, _, _, hrest⟩ := h
    rcases List.mem_cons.mp hq with rfl | hq
    · exact (hrest.resumeAt_le (by simp)).trans_lt hlt
    · exact ih hrest hq

theorem Filled.openBudget_eq {taken : List ℕ} (h : Filled gs first rest taken) :
    openBudget first rest taken = onLine first rest (openStart gs taken) := by
  cases taken with
  | nil => rfl
  | cons p older =>
    have hpos : openStart gs (p :: older) ≠ 0 := (Nat.zero_le _).trans_lt h.2.1 |>.ne'
    simp [openBudget, onLine, hpos]

theorem Filled.openStart_lt {taken : List ℕ} (h : Filled gs first rest taken)
    (hne : 0 < gs.length) : openStart gs taken < gs.length := by
  cases taken with
  | nil => exact hne
  | cons p older =>
    obtain ⟨_, _, ⟨j, hj, ⟨g, hg, _⟩, _⟩, _⟩ := h
    exact lt_of_le_of_lt hj (List.getElem?_eq_some_iff.mp hg).1

theorem isCut_openStart (hann : BreaksInText gs) (newer older : List ℕ)
    (h : Filled gs first rest (newer ++ older)) (hne : 0 < gs.length) :
    IsCut (keepBreaks (newer ++ older).contains gs) (openStart gs older) := by
  cases older with
  | nil => exact isCut_zero _
  | cons p older =>
    have hstart := h.of_append.openStart_lt hne
    obtain ⟨⟨g, hg, hopp⟩, hlt, _⟩ := h.of_append
    exact (isCut_keepBreaks hann ((Nat.zero_le _).trans_lt hlt) hstart).mpr
      ⟨p, g, hg, hopp, by simp, rfl⟩

/-- Each break taken ends the line behind the one taken before it. -/
theorem mem_lineSpans_of_filled (hann : BreaksInText gs) {newer older : List ℕ} {p : ℕ}
    (h : Filled gs first rest (newer ++ p :: older)) :
    ⟨openStart gs older, resumeAt gs p⟩ ∈
      lineSpans (keepBreaks (newer ++ p :: older).contains gs) := by
  obtain ⟨⟨g, hg, _⟩, hlt, _, _, holder⟩ := h.of_append
  have hne : 0 < gs.length := (Nat.zero_le p).trans_lt (List.getElem?_eq_some_iff.mp hg).1
  have hstop : resumeAt gs p < gs.length := h.of_append.openStart_lt hne
  refine mem_lineSpans.mpr ⟨hlt, ?_, ?_, ?_, ?_⟩
  · simpa using hstop.le
  · simpa using isCut_openStart hann (newer ++ [p]) older (by simpa using h) hne
  · exact isCut_openStart hann newer (p :: older) h hne
  · intro b hb hb' hcut
    simp only at hb hb'
    obtain ⟨q, _, _, _, hkeep, rfl⟩ := (isCut_keepBreaks hann (by omega) (by omega)).mp hcut
    rcases List.mem_append.mp (List.contains_iff_mem.mp hkeep) with hq | hq
    · exact absurd (h.resumeAt_lt hq) (by omega)
    · rcases List.mem_cons.mp hq with rfl | hq
      · exact absurd hb' (lt_irrefl _)
      · exact absurd (holder.resumeAt_le hq) (by omega)

/-- A break taken ends a line, which was filled as far as it goes. -/
theorem line_of_taken (hann : BreaksInText gs) {taken : List ℕ} (h : Filled gs first rest taken)
    {p : ℕ} (hp : p ∈ taken) : ∃ line ∈ lineSpans (keepBreaks taken.contains gs),
      line.stop = resumeAt gs p ∧ Forced gs (onLine first rest line.start) line.start p ∧
      Tight gs (onLine first rest line.start) line.start line.stop := by
  obtain ⟨newer, older, rfl⟩ := List.append_of_mem hp
  obtain ⟨_, _, hforced, htight, holder⟩ := h.of_append
  rw [holder.openBudget_eq] at hforced htight
  exact ⟨_, mem_lineSpans_of_filled hann h, rfl, hforced, htight⟩

/-- No break is left before the first glyph, where it would end an empty line. -/
theorem head_breakGreedy (hann : BreaksInText gs) {g : Glyph ℚ τ}
    (hg : (breakGreedy first rest gs)[0]? = some g) : g.split ≠ .before := by
  intro hb
  obtain ⟨s, hs, h⟩ := Fill.inv_takenBreaks gs first rest
  rw [breakGreedy_eq_keepBreaks, ← hs] at hg
  obtain ⟨k, hk, _⟩ := Option.map_eq_some_iff.mp (getElem?_keepBreaks 0 ▸ hg)
  obtain ⟨hkb, hkeep⟩ := (split_keepBreaks hann hk hg (.inl rfl)).mp hb
  obtain ⟨line, hline, hstop, _⟩ := line_of_taken hann h.filled (List.contains_iff_mem.mp hkeep)
  have hlt := (mem_lineSpans.mp hline).1
  rw [hstop, resumeAt_of_before hk hkb] at hlt
  exact absurd hlt (Nat.not_lt_zero _)

theorem last_line (hann : BreaksInText gs) {taken : List ℕ} (h : Filled gs first rest taken)
    (hne : 0 < gs.length) :
    ⟨openStart gs taken, gs.length⟩ ∈ lineSpans (keepBreaks taken.contains gs) := by
  refine mem_lineSpans.mpr ⟨h.openStart_lt hne, by simp, ?_, ?_, ?_⟩
  · exact isCut_openStart hann [] taken h hne
  · simpa using isCut_length (keepBreaks taken.contains gs)
  · intro b hb hb' hcut
    simp only at hb hb'
    obtain ⟨q, _, _, _, hkeep, rfl⟩ := (isCut_keepBreaks hann (by omega) hb').mp hcut
    exact absurd (h.resumeAt_le (List.contains_iff_mem.mp hkeep)) (by omega)

/-- A line that ends early ends at a break taken. -/
theorem taken_of_line (hann : BreaksInText gs) {taken : List ℕ} (h : Filled gs first rest taken)
    {line : Span} (hline : line ∈ lineSpans (keepBreaks taken.contains gs))
    (hstop : line.stop < gs.length) :
    ∃ p ∈ taken, resumeAt gs p = line.stop ∧
      Forced gs (onLine first rest line.start) line.start p ∧
      Tight gs (onLine first rest line.start) line.start line.stop := by
  obtain ⟨hlt, _, _, hcut, _⟩ := mem_lineSpans.mp hline
  obtain ⟨p, _, _, _, hkeep, hres⟩ := (isCut_keepBreaks hann (by omega) hstop).mp hcut
  have hp := List.contains_iff_mem.mp hkeep
  obtain ⟨line', hline', hstop', hforced, htight⟩ := line_of_taken hann h hp
  have hlt' := (mem_lineSpans.mp hline').1
  obtain rfl := lineSpans_unique (i := line.stop - 1) hline hline' (by omega) (by omega)
  exact ⟨p, hp, hres, hforced, htight⟩

/-- On a line of the broken text no glyph passes the budget while the line may end before it. -/
theorem tight_of_mem_lineSpans (hann : BreaksInText gs) {line : Span}
    (hline : line ∈ lineSpans (breakGreedy first rest gs)) :
    Tight gs (onLine first rest line.start) line.start line.stop := by
  obtain ⟨s, hs, h⟩ := Fill.inv_takenBreaks gs first rest
  rw [breakGreedy_eq_keepBreaks, ← hs] at hline
  obtain ⟨hlt, hle, _⟩ := mem_lineSpans.mp hline
  rw [length_keepBreaks] at hle
  rcases hle.eq_or_lt with heq | hstop
  · have hlast := last_line hann h.filled (by omega)
    obtain rfl := lineSpans_unique (i := gs.length - 1) hline hlast (by omega)
      ⟨by have := h.filled.openStart_lt (by omega); simp only; omega, by simp only; omega⟩
    rw [← h.filled.openBudget_eq, ← h.budget]
    exact h.tight
  · obtain ⟨_, _, _, _, htight⟩ := taken_of_line hann h.filled hline hstop
    exact htight

/-- A line of the broken text that ends early ends at a break that was forced. -/
theorem exists_forced_break (hann : BreaksInText gs) {line : Span}
    (hline : line ∈ lineSpans (breakGreedy first rest gs)) (hstop : line.stop < gs.length) :
    ∃ p, resumeAt gs p = line.stop ∧ Forced gs (onLine first rest line.start) line.start p := by
  obtain ⟨s, hs, h⟩ := Fill.inv_takenBreaks gs first rest
  rw [breakGreedy_eq_keepBreaks, ← hs] at hline
  obtain ⟨p, _, hres, hforced, _⟩ := taken_of_line hann h.filled hline hstop
  exact ⟨p, hres, hforced⟩

/-- Each break that is left ends a line at the last place it may end before a glyph whose ink passes
the budget. Only before glyphs that nothing but room of no width parts from the glyph replaced is
there another place. -/
theorem breakGreedy_forced_late (hadvance : Forward gs) (hann : BreaksInText gs) {p : ℕ}
    {g : Glyph ℚ τ} (hg : (breakGreedy first rest gs)[p]? = some g)
    (hopp : g.isOpportunity = true) :
    ∃ line ∈ lineSpans (breakGreedy first rest gs), line.stop = resumeAt gs p ∧
      ∃ j, resumeAt gs p ≤ j ∧ Overflows gs (onLine first rest line.start) line.start j ∧
        ∀ q k, gs[q]? = some k → k.annotates = false → p < q →
          (q < j → k.split ≠ .replace) ∧
          (q ≤ j → k.split = .before → g.split = .replace ∧
            ∀ i h, gs[i]? = some h → p < i → i < q → h.annotates = false → h.advance = 0) := by
  obtain ⟨s, hs, h⟩ := Fill.inv_takenBreaks gs first rest
  rw [breakGreedy_eq_keepBreaks, ← hs] at hg ⊢
  have hkept := hg
  rw [getElem?_keepBreaks] at hkept
  obtain ⟨g', hg', hif⟩ := Option.map_eq_some_iff.mp hkept
  split_ifs at hif with hdrop
  · rw [← hif] at hopp
    simp [Glyph.isOpportunity] at hopp
  · subst hif
    have hp : p ∈ s.taken := by simpa [hopp] using hdrop
    obtain ⟨line, hline, hstop, ⟨j, hj, hover, hnone⟩, _⟩ := line_of_taken hann h.filled hp
    refine ⟨line, hline, hstop, j, hj, hover, fun q k hk hkann hpq => ⟨fun hq => ?_, ?_⟩⟩
    · exact (hnone q k hk hkann hpq (by omega)).1
    · intro hq hb
      obtain ⟨hres, hroom⟩ := (hnone q k hk hkann hpq (by omega)).2 hb
      refine ⟨?_, fun i h hi hpi hiq hiann =>
        hadvance.room_eq_zero_iff.mp hroom i h hi hpi hiq hiann⟩
      by_contra hne
      simp [resumeAt, hg', hne] at hres

/-- Three letters of width one, with a space after each but the last. -/
def threeLetters : List (Glyph ℚ ℚ) :=
  let space : Glyph ℚ ℚ := { ofCode 32 1 with split := .replace }
  [ofCode 97 1, space, ofCode 98 1, space, ofCode 99 1]

theorem forward_threeLetters : Forward threeLetters := by
  simp [Forward, threeLetters, ofCode]

theorem breaksInText_threeLetters : BreaksInText threeLetters := by
  simp [BreaksInText, threeLetters, ofCode, annotates, RubyRole.annotates]

theorem breakGreedy_forced_late_threeLetters :
    Forward threeLetters ∧ BreaksInText threeLetters ∧ ∃ g,
      (breakGreedy 3 3 threeLetters)[3]? = some g ∧ g.isOpportunity = true ∧
      ∃ line ∈ lineSpans (breakGreedy 3 3 threeLetters), line.stop = resumeAt threeLetters 3 ∧
        ∃ j, resumeAt threeLetters 3 ≤ j ∧
          Overflows threeLetters (onLine 3 3 line.start) line.start j := by
  have hleft : (breakGreedy 3 3 threeLetters)[3]?.map isOpportunity = some true := by
    decide +kernel
  obtain ⟨g, hg, hopp⟩ := Option.map_eq_some_iff.mp hleft
  obtain ⟨line, hline, hstop, j, hj, hover, _⟩ :=
    breakGreedy_forced_late forward_threeLetters breaksInText_threeLetters hg hopp
  exact ⟨forward_threeLetters, breaksInText_threeLetters, g, hg, hopp, line, hline, hstop, j, hj,
    hover⟩

/-- Broken at the places kept only, every line holds the glyphs held against its budget. -/
def Feasible (first rest : ℚ) (gs : List (Glyph ℚ τ)) (keep : ℕ → Bool) : Prop :=
  ∀ line ∈ lineSpans (keepBreaks keep gs), ∀ i g, gs[i]? = some g → line.start ≤ i →
    i < line.stop → IsTested g → room gs line.start i + g.width ≤ onLine first rest line.start

/-- A line that starts at `a` is no later than one that starts at `b`: between them nothing but
hanging glyphs of no width is set. -/
def Ahead (gs : List (Glyph ℚ τ)) (a b : ℕ) : Prop :=
  ∀ i g, gs[i]? = some g → a ≤ i → i < b → g.annotates = false →
    g.split = .hang ∧ g.advance = 0

theorem ahead_of_le {a b : ℕ} (h : b ≤ a) : Ahead gs a b :=
  fun _ _ _ ha hb => absurd ha (by omega)

theorem Ahead.room_le (hadvance : Forward gs) {a b j : ℕ} (h : Ahead gs a b) (ha : a ≤ j)
    (hb : b ≤ j) : room gs a j ≤ room gs b j := by
  rcases Nat.le_total b a with hba | hab
  · rw [← room_add gs hba ha]
    exact le_add_of_nonneg_left (hadvance.room_nonneg b a)
  · have hzero : room gs a b = 0 := hadvance.room_eq_zero_iff.mpr
      fun i g hg hai hib hann => (h i g hg hai hib hann).2
    rw [← room_add gs hab hb, hzero, zero_add]

/-- A feasible line that starts no further than another ends before a glyph that overflows it. -/
theorem Ahead.stop_le (hadvance : Forward gs) (hfeasible : Feasible first rest gs keep) {a j : ℕ}
    {r : Span} (h : Ahead gs a r.start) (hr : r ∈ lineSpans (keepBreaks keep gs)) (haj : a ≤ j)
    (hover : Overflows gs (onLine first rest r.start) a j) : r.stop ≤ j := by
  obtain ⟨t, ht, htested, hlt⟩ := hover
  have hstart : r.start ≤ j := by
    by_contra hj
    have hhang := (h j t ht haj (by omega) htested.1).1
    rcases htested.2 with hn | hb
    · rw [hn] at hhang
      cases hhang
    · rw [hb] at hhang
      cases hhang
  by_contra hj
  have hfits := hfeasible r hr j t ht hstart (by omega) htested
  have hroom := h.room_le hadvance haj hstart
  linarith

/-- No break that could replace a forced one leads further than it, but for hanging glyphs. -/
theorem ahead_of_noneAfter (hadvance : Forward gs)
    (hpositive : ∀ g ∈ gs, IsTested g → 0 < g.advance) {p q n : ℕ} (hnone : NoneAfter gs p n)
    {k : Glyph ℚ τ} (hk : gs[q]? = some k) (hopp : k.isOpportunity = true)
    (hn : resumeAt gs q < n) : Ahead gs (resumeAt gs p) (resumeAt gs q) := by
  have hle := le_resumeAt gs q
  rcases Nat.lt_or_ge p q with hpq | hqp
  · obtain ⟨hkann, hsplit⟩ := isOpportunity_iff.mp hopp
    obtain ⟨hnot, hbefore⟩ := hnone q k hk hkann hpq (by omega)
    have hb : k.split = .before := hsplit.resolve_right hnot
    obtain ⟨hnext, hroom⟩ := hbefore hb
    rw [hnext, resumeAt_of_before hk hb]
    intro i g hg hi hiq hgann
    have hzero := hadvance.room_eq_zero_iff.mp hroom i g hg hi hiq hgann
    have huntested : ¬ IsTested g := by
      intro htested
      have := hpositive g (List.mem_of_getElem? hg) htested
      linarith
    have hnot := (hnone i g hg hgann (by omega) (by omega)).1
    constructor
    · cases hsplit : g.split with
      | none => exact absurd ⟨hgann, .inl hsplit⟩ huntested
      | before => exact absurd ⟨hgann, .inr hsplit⟩ huntested
      | replace => exact absurd hsplit hnot
      | hang => rfl
    · exact hzero
  · apply ahead_of_le
    rcases hqp.eq_or_lt with rfl | hlt
    · exact le_rfl
    · have h₁ := resumeAt_le gs q
      have h₂ := le_resumeAt gs p
      omega

/-- A feasible line that starts no further than a line of the broken text ends no further. -/
theorem Ahead.next (hadvance : Forward gs)
    (hpositive : ∀ g ∈ gs, IsTested g → 0 < g.advance) (hann : BreaksInText gs)
    (hfeasible : Feasible first rest gs keep) {a p : ℕ} {r : Span} (h : Ahead gs a r.start)
    (ha : a ≤ resumeAt gs p) (hforced : Forced gs (onLine first rest r.start) a p)
    (hr : r ∈ lineSpans (keepBreaks keep gs)) :
    Ahead gs (resumeAt gs p) r.stop ∧ r.stop < gs.length := by
  obtain ⟨j, hj, hover, hnone⟩ := hforced
  have hstop := h.stop_le hadvance hfeasible hr (ha.trans hj) hover
  obtain ⟨t, ht, _⟩ := hover
  have hlen := (List.getElem?_eq_some_iff.mp ht).1
  obtain ⟨hlt, _, _, hcut, _⟩ := mem_lineSpans.mp hr
  obtain ⟨q, k, hk, hopp, _, hres⟩ := (isCut_keepBreaks hann (by omega) (by omega)).mp hcut
  rw [← hres] at hstop ⊢
  constructor
  · exact ahead_of_noneAfter hadvance hpositive hnone hk hopp (by omega)
  · omega

/-- From a line that starts no later on, the broken text has no more lines left. -/
theorem length_le_of_ahead (hadvance : Forward gs)
    (hpositive : ∀ g ∈ gs, IsTested g → 0 < g.advance) (hann : BreaksInText gs)
    (hfeasible : Feasible first rest gs keep) {a b : ℕ} {l m : List Span}
    (hl : Span.Tiles a gs.length l) (hm : Span.Tiles b gs.length m)
    (hlmem : ∀ s ∈ l, s ∈ lineSpans (breakGreedy first rest gs))
    (hmmem : ∀ r ∈ m, r ∈ lineSpans (keepBreaks keep gs))
    (hahead : Ahead gs a b) (hzero : a = 0 ↔ b = 0) (hleft : a < gs.length → b < gs.length) :
    l.length ≤ m.length := by
  induction l generalizing a b m with
  | nil => exact Nat.zero_le _
  | cons s l ih =>
    obtain ⟨rfl, hslt, hl⟩ := hl
    have hlen := hl.le
    cases m with
    | nil =>
      have hb : b = gs.length := hm
      exact absurd (hleft (by omega)) (by omega)
    | cons r m =>
      obtain ⟨rfl, hrlt, hm⟩ := hm
      rw [List.length_cons, List.length_cons]
      refine Nat.succ_le_succ ?_
      rcases hlen.eq_or_lt with heq | hstop
      · cases l with
        | nil => exact Nat.zero_le _
        | cons s' l =>
          obtain ⟨hs', hlt', hl'⟩ := hl
          have := hl'.le
          omega
      · obtain ⟨p, hres, hforced⟩ := exists_forced_break hann (hlmem s (by simp)) hstop
        have hbudget : onLine first rest s.start = onLine first rest r.start := by
          simp [onLine, hzero]
        rw [hbudget] at hforced
        obtain ⟨hnext, hrstop⟩ := hahead.next hadvance hpositive hann hfeasible (by omega)
          hforced (hmmem r (by simp))
        exact ih hl hm (fun s' hs' => hlmem s' (by simp [hs']))
          (fun r' hr' => hmmem r' (by simp [hr'])) (hres ▸ hnext) (by omega) (fun _ => hrstop)

/-- No choice of breaks that holds every line to its budget makes do with fewer lines. -/
theorem breakGreedy_fewest_lines (hadvance : Forward gs)
    (hpositive : ∀ g ∈ gs, IsTested g → 0 < g.advance) (hann : BreaksInText gs)
    (hfeasible : Feasible first rest gs keep) :
    (lineSpans (breakGreedy first rest gs)).length ≤
      (lineSpans (keepBreaks keep gs)).length := by
  have hgreedy := tiles_lineSpans (breakGreedy first rest gs)
  have hother := tiles_lineSpans (keepBreaks keep gs)
  rw [breakGreedy_eq_keepBreaks, length_keepBreaks, ← breakGreedy_eq_keepBreaks] at hgreedy
  rw [length_keepBreaks] at hother
  exact length_le_of_ahead hadvance hpositive hann hfeasible hgreedy hother (fun _ hs => hs)
    (fun _ hr => hr) (ahead_of_le le_rfl) Iff.rfl id

theorem feasible_threeLetters : Feasible 3 3 threeLetters fun _ => true := by
  have hlines : lineSpans (keepBreaks (fun _ => true) threeLetters) =
      [⟨0, 2⟩, ⟨2, 4⟩, ⟨4, 5⟩] := by decide +kernel
  intro line hline i g hg hstart hstop _
  rw [hlines] at hline
  fin_cases hline <;> simp only at hstart hstop <;> interval_cases i <;>
    simp [threeLetters] at hg <;> subst hg <;>
    norm_num [room, takes, threeLetters, ofCode, onLine, annotates, RubyRole.annotates]

theorem breakGreedy_fewest_lines_threeLetters :
    Forward threeLetters ∧ (∀ g ∈ threeLetters, IsTested g → 0 < g.advance) ∧
      BreaksInText threeLetters ∧ Feasible 3 3 threeLetters (fun _ => true) ∧
      (lineSpans (breakGreedy 3 3 threeLetters)).length ≤
        (lineSpans (keepBreaks (fun _ => true) threeLetters)).length := by
  have hpositive : ∀ g ∈ threeLetters, IsTested g → 0 < g.advance := by
    simp [threeLetters, ofCode]
  exact ⟨forward_threeLetters, hpositive, breaksInText_threeLetters, feasible_threeLetters,
    breakGreedy_fewest_lines forward_threeLetters hpositive breaksInText_threeLetters
      feasible_threeLetters⟩

end Glyph

end Typeset
