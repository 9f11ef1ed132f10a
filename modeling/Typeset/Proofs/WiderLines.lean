import Typeset.Proofs.GreedyBreaks
import Typeset.Proofs.KeptBreaks

/-!
# Wider lines

Two walks over one text, the second with the larger budgets, break at different glyphs and then
measure from different places. Still no line of the second starts before the line of that number in
the first, so the second makes do with no more lines. What keeps the walks in order is that a break
before a glyph is taken only where room lies between the glyph and every replaced glyph of its line:
the narrow walk never breaks behind a glyph that the wide walk replaces at the same place.
-/

namespace Typeset

namespace Glyph

variable {τ : Type} {gs : List (Glyph ℚ τ)} {a b n p q : ℕ}

/-- A break before `p` ends a line from `a` that holds text, with room behind every glyph of it that
a break could replace. -/
structure Parts (gs : List (Glyph ℚ τ)) (a p : ℕ) : Prop where
  settled : ∃ i g, gs[i]? = some g ∧ a ≤ i ∧ i < p ∧ g.Settles
  room_pos : ∀ q g, gs[q]? = some g → g.annotates = false → g.split = .replace → a ≤ q → q < p →
    0 < room gs (q + 1) p

/-- Each break before a glyph, the latest first, has room behind the replaced glyphs of its line. -/
def Parted (gs : List (Glyph ℚ τ)) : List ℕ → Prop
  | [] => True
  | p :: older => (∀ g, gs[p]? = some g → g.split = .before → Parts gs (openStart gs older) p) ∧
      Parted gs older

theorem Parted.of_append {newer older : List ℕ} (h : Parted gs (newer ++ older)) :
    Parted gs older := by
  induction newer with
  | nil => exact h
  | cons _ _ ih => exact ih h.2

end Glyph

open Glyph

namespace Fill

variable {τ : Type} {gs : List (Glyph ℚ τ)} {g : Glyph ℚ τ} {first rest : ℚ} {n : ℕ}
  {s t : Fill ℚ}

/-- Before glyph `n`, the line being filled holds text once anything is placed, and its candidate
either replaces its glyph or has room behind the replaced glyphs of the line. -/
structure Roomy (gs : List (Glyph ℚ τ)) (n : ℕ) (s : Fill ℚ) : Prop where
  placed : s.placed = true → ∃ i g, gs[i]? = some g ∧ openStart gs s.taken ≤ i ∧ i < n ∧ g.Settles
  replaces : ∀ c g, s.candidate = some c → gs[c.index]? = some g → g.split = .replace →
    c.replaces = true
  parts : ∀ c g, s.candidate = some c → gs[c.index]? = some g → g.split = .before →
    Parts gs (openStart gs s.taken) c.index
  parted : Parted gs s.taken

theorem roomy_start (gs : List (Glyph ℚ τ)) (first : ℚ) : Roomy gs 0 (start first) where
  placed h := by cases h
  replaces _ _ h := by cases h
  parts _ _ h := by cases h
  parted := trivial

/-- Room lies behind every replaced glyph of a line that may end before the next glyph. -/
theorem Roomy.parts_before (h : Roomy gs n s) (hinv : Inv gs first rest n n s)
    (hadvance : Forward gs) (hplaced : s.placed = true) (hspace : s.settle.afterSpace = false) :
    Parts gs (openStart gs s.taken) n := by
  constructor
  · exact h.placed hplaced
  · intro q k hk hann hreplace hstart hqn
    cases hc : s.candidate with
    | none => exact absurd ⟨k, hk, hann, .inl hreplace⟩ (hinv.spent hc q hqn hstart)
    | some c =>
      have hpending := hinv.pending c hc
      obtain ⟨l, hl, hopp⟩ := hpending.opportunity
      have hle : q ≤ c.index := by
        by_contra hlt
        exact (hpending.noneAfter q k hk hann (by omega) hqn).1 hreplace
      have hstep : c.index ≤ n := (le_resumeAt gs _).trans hpending.resume_le
      rcases (isOpportunity_iff.mp hopp).2 with hb | hr
      · have hlt : q < c.index := by
          apply lt_of_le_of_ne hle
          rintro rfl
          obtain rfl := Option.mem_unique hk hl
          rw [hreplace] at hb
          cases hb
        have hpos := (h.parts c l hc hl hb).room_pos q k hk hann hreplace hstart hlt
        rw [← room_add gs hlt hstep]
        exact add_pos_of_pos_of_nonneg hpos (hadvance.room_nonneg _ _)
      · have hresume := resumeAt_of_replace hl hr
        have hne : c.resume ≠ s.cursor + s.hanging := by
          simpa [afterSpace, settle, hc, h.replaces c l hc hl hr] using hspace
        rw [hinv.cursor, hpending.resume, hresume] at hne
        have hmn := hresume ▸ hpending.resume_le
        have hroom := room_add gs (hresume ▸ hpending.start_lt.le) hmn
        have hpos : 0 < room gs (c.index + 1) n := by
          apply lt_of_le_of_ne (hadvance.room_nonneg _ _)
          intro hzero
          rw [← hzero, add_zero] at hroom
          exact hne hroom
        rw [← room_add gs (Nat.succ_le_succ hle) hmn]
        exact add_pos_of_nonneg_of_pos (hadvance.room_nonneg _ _) hpos

/-- What is known of a candidate that the walk may hold when it sets a glyph. -/
theorem Roomy.offered (h : Roomy gs n s) (hinv : Inv gs first rest n n s) (hadvance : Forward gs)
    (hg : gs[n]? = some g) {c : Candidate ℚ} (hc : Offers s g n (some c)) :
    resumeAt gs c.index ≤ n ∧
      (∀ k, gs[c.index]? = some k → k.split = .replace → c.replaces = true) ∧
      ∀ k, gs[c.index]? = some k → k.split = .before →
        Parts gs (openStart gs s.taken) c.index := by
  generalize hoffer : some c = offer at hc
  cases hc with
  | held =>
    exact ⟨(hinv.pending c hoffer.symm).resume_le, fun k => h.replaces c k hoffer.symm,
      fun k => h.parts c k hoffer.symm⟩
  | before hsplit hplaced hspace =>
    obtain rfl := Option.some.inj hoffer
    refine ⟨(resumeAt_of_before hg hsplit).le, ?_, ?_⟩
    · intro k hk hr
      obtain rfl := Option.mem_unique hg hk
      rw [hsplit] at hr
      cases hr
    · exact fun _ _ _ => h.parts_before hinv hadvance hplaced hspace

/-- What every glyph keeps. -/
theorem Roomy.step (h : Roomy gs n s) (hinv : Inv gs first rest n n s) (hadvance : Forward gs)
    (hg : gs[n]? = some g) (ht : Moves s g n t) : Roomy gs (n + 1) t := by
  have hset : g.Settles → t.taken = s.taken → ∃ i k, gs[i]? = some k ∧
      openStart gs t.taken ≤ i ∧ i < n + 1 ∧ k.Settles := by
    intro hsettles htaken
    exact ⟨n, g, hg, htaken ▸ hinv.start_le, Nat.lt_succ_self n, hsettles⟩
  cases ht with
  | skip _ hplaced hcand htaken =>
    constructor
    · intro hp
      obtain ⟨i, k, hk, hstart, hi, hsettles⟩ := h.placed (hplaced ▸ hp)
      exact ⟨i, k, hk, htaken ▸ hstart, hi.trans (Nat.lt_succ_self n), hsettles⟩
    · exact hcand ▸ h.replaces
    · exact htaken ▸ hcand ▸ h.parts
    · exact htaken ▸ h.parted
  | replace hsettles hsplit _ hcand htaken =>
    constructor
    · exact fun _ => hset hsettles htaken
    · intro c k hc _ _
      rw [hcand] at hc
      exact Option.some.inj hc ▸ rfl
    · intro c k hc hk hb
      obtain rfl := Option.some.inj (hcand.symm.trans hc)
      obtain rfl := Option.mem_unique hg hk
      rw [hsplit] at hb
      cases hb
    · exact htaken ▸ h.parted
  | set hstands _ hcand htaken =>
    constructor
    · exact fun _ => hset hstands.1 htaken
    · exact fun c k hc => (h.offered hinv hadvance hg (hc ▸ hcand)).2.1 k
    · exact fun c k hc => htaken ▸ (h.offered hinv hadvance hg (hc ▸ hcand)).2.2 k
    · exact htaken ▸ h.parted
  | take hstands _ c hcand hnone htaken =>
    obtain ⟨hresume, _, hparts⟩ := h.offered hinv hadvance hg hcand
    constructor
    · exact fun _ => ⟨n, g, hg, htaken ▸ hresume, Nat.lt_succ_self n, hstands.1⟩
    · intro d k hd
      rw [hnone] at hd
      cases hd
    · intro d k hd
      rw [hnone] at hd
      cases hd
    · rw [htaken]
      exact ⟨hparts, h.parted⟩

/-- The breaks taken, at the end of the text. -/
theorem roomy_takenBreaks (hadvance : Forward gs) (first rest : ℚ) :
    ∃ s : Fill ℚ, s.taken = takenBreaks first rest gs ∧
      Inv gs first rest gs.length gs.length s ∧ Roomy gs gs.length s :=
  ⟨_, rfl, foldl_zipIdx_run (P := fun n s => Inv gs first rest n n s ∧ Roomy gs n s)
    ⟨inv_start gs first rest, roomy_start gs first⟩
    fun n g s hg h => ⟨h.1.step hg, h.2.step h.1 hadvance hg (moves_step rest s g n)⟩⟩

end Fill

namespace Glyph

variable {τ : Type} {gs : List (Glyph ℚ τ)} {first rest first' rest' : ℚ} {a b p : ℕ}

/-- A break before a glyph may end its line also where the line starts earlier. -/
theorem Parts.usable (h : Parts gs b p) (hadvance : Forward gs)
    (hpositive : ∀ g ∈ gs, IsTested g → 0 < g.advance) {g : Glyph ℚ τ} (hg : gs[p]? = some g)
    (hann : g.annotates = false) (hsplit : g.split = .before) (hab : a ≤ b) : Usable gs a p := by
  obtain ⟨i, k, hk, hbi, hip, hkann, hhang⟩ := h.settled
  have hpos : 0 < room gs i p := by
    rw [← room_add gs (Nat.le_succ i) hip, room_succ le_rfl, room_self, zero_add,
      takes_of_text hk hkann]
    by_cases hreplace : k.split = .replace
    · exact add_pos_of_nonneg_of_pos (hadvance k (List.mem_of_getElem? hk) hkann)
        (h.room_pos i k hk hkann hreplace hbi hip)
    · have htested : IsTested k := by
        refine ⟨hkann, ?_⟩
        cases hs : k.split <;> simp_all
      exact add_pos_of_pos_of_nonneg (hpositive k (List.mem_of_getElem? hk) htested)
        (hadvance.room_nonneg _ _)
  refine ⟨g, hg, hann, .inr ⟨hsplit, ?_, i, k, hk, hab.trans hbi, hip, hkann, hhang⟩⟩
  rw [← room_add gs (hab.trans hbi) hip.le]
  exact add_pos_of_nonneg_of_pos (hadvance.room_nonneg _ _) hpos

/-- A line of the broken text that ends early ends at a break that was forced, with room behind the
replaced glyphs of the line if the break comes before its glyph. -/
theorem exists_parted_break (hadvance : Forward gs) (hann : BreaksInText gs) {line : Span}
    (hline : line ∈ lineSpans (breakGreedy first rest gs)) (hstop : line.stop < gs.length) :
    ∃ p g, gs[p]? = some g ∧ g.isOpportunity = true ∧ resumeAt gs p = line.stop ∧
      Forced gs (onLine first rest line.start) line.start p ∧
      (g.split = .before → Parts gs line.start p) := by
  obtain ⟨s, hs, h, hroomy⟩ := Fill.roomy_takenBreaks hadvance first rest
  rw [breakGreedy_eq_keepBreaks, ← hs] at hline
  obtain ⟨p, hp, hres, hforced, _⟩ := taken_of_line hann h.filled hline hstop
  obtain ⟨newer, older, htaken⟩ := List.append_of_mem hp
  have hfilled := htaken ▸ h.filled
  have hmem := htaken ▸ mem_lineSpans_of_filled hann hfilled
  obtain ⟨⟨g, hg, hopp⟩, hlt, _⟩ := hfilled.of_append
  have hspan := (mem_lineSpans.mp hline).1
  obtain rfl := lineSpans_unique (i := line.stop - 1) hline hmem (by omega)
    ⟨by simp only; omega, by simp only; omega⟩
  have hparted := (htaken ▸ hroomy.parted).of_append
  exact ⟨p, g, hg, hopp, hres, hforced, hparted.1 g hg⟩

/-- What passes a budget passes a smaller one on a line that starts no later. -/
theorem Overflows.of_wider (hadvance : Forward gs) {budget budget' : ℚ} {j : ℕ}
    (h : Overflows gs budget' b j) (hab : a ≤ b) (hbj : b ≤ j) (hbudget : budget ≤ budget') :
    Overflows gs budget a j := by
  obtain ⟨g, hg, htested, hover⟩ := h
  have hroom : room gs b j ≤ room gs a j := by
    rw [← room_add gs hab hbj]
    exact le_add_of_nonneg_left (hadvance.room_nonneg _ _)
  exact ⟨g, hg, htested, by linarith⟩

/-- Where no other break follows a break, none that has room behind the replaced glyphs of its line
leads further. -/
theorem NoneAfter.resumeAt_le {q n : ℕ} (hnone : NoneAfter gs p n) {g k : Glyph ℚ τ}
    (hg : gs[p]? = some g) (hgopp : g.isOpportunity = true) (hk : gs[q]? = some k)
    (hkopp : k.isOpportunity = true) (hparts : k.split = .before → Parts gs a q) (hap : a ≤ p)
    (hqn : q < n) : resumeAt gs q ≤ resumeAt gs p := by
  obtain ⟨hgann, hgsplit⟩ := isOpportunity_iff.mp hgopp
  obtain ⟨hkann, hksplit⟩ := isOpportunity_iff.mp hkopp
  rcases Nat.lt_trichotomy p q with hpq | rfl | hqp
  · -- such a break would come before a glyph with no room behind the one replaced at `p`
    obtain ⟨hnot, hbefore⟩ := hnone q k hk hkann hpq hqn
    have hb := hksplit.resolve_right hnot
    obtain ⟨hnext, hzero⟩ := hbefore hb
    have hreplace : g.split = .replace := by
      apply hgsplit.resolve_left
      intro hb'
      rw [resumeAt_of_before hg hb'] at hnext
      omega
    have hpos := (hparts hb).room_pos p g hg hgann hreplace hap hpq
    exact absurd hzero hpos.ne'
  · exact le_rfl
  · exact (Glyph.resumeAt_le gs q).trans (hqp.trans_le (le_resumeAt gs p))

/-- A line of the narrow text that starts no later than one of the wide text ends no later. -/
theorem stop_le_of_wider (hadvance : Forward gs)
    (hpositive : ∀ g ∈ gs, IsTested g → 0 < g.advance) (hann : BreaksInText gs)
    {narrow wide : Span} (hnarrow : narrow ∈ lineSpans (breakGreedy first rest gs))
    (hwide : wide ∈ lineSpans (breakGreedy first' rest' gs)) (hstart : narrow.start ≤ wide.start)
    (hbudget : onLine first rest narrow.start ≤ onLine first' rest' wide.start) :
    narrow.stop ≤ wide.stop := by
  have hlen := (mem_lineSpans.mp hnarrow).2.1
  have hwlt := (mem_lineSpans.mp hwide).1
  rw [length_breakGreedy] at hlen
  by_contra hlt
  obtain ⟨p', g', hg', hopp', hres', ⟨j, hj, hover, hnone⟩, hparts'⟩ :=
    exists_parted_break hadvance hann hwide (by omega)
  have hle' := le_resumeAt gs p'
  have hp' := resumeAt_le gs p'
  -- the glyph that forces the wide break passes the narrow budget as well
  have hpast := hover.of_wider hadvance hstart (by omega) hbudget
  have husable : Usable gs narrow.start p' := by
    obtain ⟨hann', hb | hr⟩ := isOpportunity_iff.mp hopp'
    · exact (hparts' hb).usable hadvance hpositive hg' hann' hb hstart
    · exact ⟨g', hg', hann', .inl hr⟩
  have hstop : narrow.stop ≤ j := by
    by_contra hstop
    exact tight_of_mem_lineSpans hann hnarrow j (by omega) (by omega) hpast p' (by omega)
      (by omega) husable
  -- so the narrow line ends early too, at a break that leads no further than the wide one
  obtain ⟨t, ht, _⟩ := hover
  have hjlen := (List.getElem?_eq_some_iff.mp ht).1
  obtain ⟨p, g, hg, hopp, hres, _, hparts⟩ :=
    exists_parted_break hadvance hann hnarrow (by omega)
  have hle := le_resumeAt gs p
  have hlead := hnone.resumeAt_le hg' hopp' hg hopp hparts (by omega) (by omega)
  omega

/-- From a line that starts no earlier on, the wide text keeps to lines that start no earlier, and
has no more of them left. -/
theorem lines_of_wider (hadvance : Forward gs)
    (hpositive : ∀ g ∈ gs, IsTested g → 0 < g.advance) (hann : BreaksInText gs)
    (hfirst : first ≤ first') (hrest : rest ≤ rest') {l m : List Span}
    (hl : Span.Tiles a gs.length l) (hm : Span.Tiles b gs.length m)
    (hlmem : ∀ s ∈ l, s ∈ lineSpans (breakGreedy first rest gs))
    (hmmem : ∀ s ∈ m, s ∈ lineSpans (breakGreedy first' rest' gs))
    (hab : a ≤ b) (hzero : a = 0 ↔ b = 0) : m.length ≤ l.length ∧
      ∀ (k : ℕ) (s t : Span), l[k]? = some s → m[k]? = some t → s.start ≤ t.start := by
  induction l generalizing a b m with
  | nil =>
    have ha : a = gs.length := hl
    cases m with
    | nil => simp
    | cons t m =>
      obtain ⟨ht, hlt, hm⟩ := hm
      have := hm.le
      omega
  | cons s l ih =>
    cases m with
    | nil => simp
    | cons t m =>
      obtain ⟨rfl, hslt, hl⟩ := hl
      obtain ⟨rfl, htlt, hm⟩ := hm
      have hbudget : onLine first rest s.start ≤ onLine first' rest' t.start := by
        unfold onLine
        by_cases hs : s.start = 0
        · rwa [if_pos hs, if_pos (hzero.mp hs)]
        · rwa [if_neg hs, if_neg (hzero.not.mp hs)]
      have hstop := stop_le_of_wider hadvance hpositive hann (hlmem s (by simp))
        (hmmem t (by simp)) hab hbudget
      obtain ⟨hlength, hstarts⟩ := ih hl hm (fun r hr => hlmem r (by simp [hr]))
        (fun r hr => hmmem r (by simp [hr])) hstop (by omega)
      constructor
      · exact Nat.succ_le_succ hlength
      · intro k r u hr hu
        cases k with
        | zero =>
          obtain rfl := Option.some.inj hr
          obtain rfl := Option.some.inj hu
          exact hab
        | succ k => exact hstarts k r u hr hu

/-- Wider lines never need more lines, and none of them starts earlier. -/
theorem breakGreedy_wider (hadvance : Forward gs)
    (hpositive : ∀ g ∈ gs, IsTested g → 0 < g.advance) (hann : BreaksInText gs)
    (hfirst : first ≤ first') (hrest : rest ≤ rest') :
    (lineSpans (breakGreedy first' rest' gs)).length ≤
        (lineSpans (breakGreedy first rest gs)).length ∧
      ∀ (k : ℕ) (s t : Span), (lineSpans (breakGreedy first rest gs))[k]? = some s →
        (lineSpans (breakGreedy first' rest' gs))[k]? = some t → s.start ≤ t.start := by
  have hnarrow := tiles_lineSpans (breakGreedy first rest gs)
  have hwide := tiles_lineSpans (breakGreedy first' rest' gs)
  rw [length_breakGreedy] at hnarrow hwide
  exact lines_of_wider hadvance hpositive hann hfirst hrest hnarrow hwide (fun _ hs => hs)
    (fun _ hs => hs) le_rfl Iff.rfl

theorem breakGreedy_wider_threeLetters :
    lineSpans (breakGreedy 1 1 threeLetters) = [⟨0, 2⟩, ⟨2, 4⟩, ⟨4, 5⟩] ∧
      lineSpans (breakGreedy 3 3 threeLetters) = [⟨0, 4⟩, ⟨4, 5⟩] ∧
      (lineSpans (breakGreedy 3 3 threeLetters)).length ≤
        (lineSpans (breakGreedy 1 1 threeLetters)).length ∧
      ∀ (k : ℕ) (s t : Span), (lineSpans (breakGreedy 1 1 threeLetters))[k]? = some s →
        (lineSpans (breakGreedy 3 3 threeLetters))[k]? = some t → s.start ≤ t.start := by
  have hpositive : ∀ g ∈ threeLetters, IsTested g → 0 < g.advance := by
    simp [threeLetters, ofCode]
  refine ⟨by decide +kernel, by decide +kernel, ?_⟩
  exact breakGreedy_wider forward_threeLetters hpositive breaksInText_threeLetters
    (by norm_num) (by norm_num)

end Glyph

end Typeset
