import Mathlib.Algebra.BigOperators.Intervals
import Mathlib.Algebra.Order.BigOperators.Group.Finset
import Mathlib.Data.Rat.Cast.Order
import Mathlib.Tactic
import Typeset.Break.Greedy
import Typeset.Proofs.Sweep

/-!
# The line being filled

Over exact numbers the cursor of the greedy walk is the room taken since the start of its line. A
pending break is the last at which the line may end, a break taken was forced by the ink of a later
glyph, and no glyph is let past the budget while its line may still end before it.
-/

namespace Typeset

namespace Glyph

variable {τ : Type} {gs : List (Glyph ℚ τ)}

theorem isOpportunity_iff {g : Glyph ℚ τ} : g.isOpportunity = true ↔
    g.annotates = false ∧ (g.split = .before ∨ g.split = .replace) := by
  simp [isOpportunity]

theorem not_opportunity {g : Glyph ℚ τ} (hno : g.isOpportunity = false)
    (hann : g.annotates = false) : g.split ≠ .before ∧ g.split ≠ .replace := by
  simpa [isOpportunity, hann] using hno

/-- The room that the glyph at a place takes on its line. Annotations take none. -/
def takes (gs : List (Glyph ℚ τ)) (i : ℕ) : ℚ :=
  match gs[i]? with
  | some g => if g.annotates then 0 else g.advance
  | none => 0

/-- The room that the glyphs from `a` up to but excluding `b` take. -/
def room (gs : List (Glyph ℚ τ)) (a b : ℕ) : ℚ := ∑ i ∈ Finset.Ico a b, takes gs i

theorem takes_of_annotates {i : ℕ} {g : Glyph ℚ τ} (hg : gs[i]? = some g)
    (h : g.annotates = true) : takes gs i = 0 := by
  simp [takes, hg, h]

theorem takes_of_text {i : ℕ} {g : Glyph ℚ τ} (hg : gs[i]? = some g)
    (h : g.annotates = false) : takes gs i = g.advance := by
  simp [takes, hg, h]

@[simp] theorem room_self (gs : List (Glyph ℚ τ)) (a : ℕ) : room gs a a = 0 := by
  simp [room]

theorem room_succ {a b : ℕ} (h : a ≤ b) : room gs a (b + 1) = room gs a b + takes gs b :=
  Finset.sum_Ico_succ_top h _

theorem room_add (gs : List (Glyph ℚ τ)) {a b c : ℕ} (hab : a ≤ b) (hbc : b ≤ c) :
    room gs a b + room gs b c = room gs a c :=
  Finset.sum_Ico_consecutive _ hab hbc

/-- Advances lead forward, those of annotations apart. -/
def Forward (gs : List (Glyph ℚ τ)) : Prop := ∀ g ∈ gs, g.annotates = false → 0 ≤ g.advance

theorem Forward.takes_nonneg (h : Forward gs) (i : ℕ) : 0 ≤ takes gs i := by
  unfold takes
  split
  · rename_i g hg
    split_ifs with hann
    · exact le_rfl
    · exact h g (List.mem_of_getElem? hg) (by simpa using hann)
  · exact le_rfl

theorem Forward.room_nonneg (h : Forward gs) (a b : ℕ) : 0 ≤ room gs a b :=
  Finset.sum_nonneg fun i _ => h.takes_nonneg i

theorem Forward.room_eq_zero_iff (h : Forward gs) {a b : ℕ} : room gs a b = 0 ↔
    ∀ i g, gs[i]? = some g → a ≤ i → i < b → g.annotates = false → g.advance = 0 := by
  rw [room, Finset.sum_eq_zero_iff_of_nonneg fun i _ => h.takes_nonneg i]
  constructor
  · intro hzero i g hg ha hb hann
    rw [← takes_of_text hg hann]
    exact hzero i (Finset.mem_Ico.mpr ⟨ha, hb⟩)
  · intro hzero i hi
    obtain ⟨ha, hb⟩ := Finset.mem_Ico.mp hi
    unfold takes
    split
    · rename_i g hg
      split_ifs with hann
      · rfl
      · exact hzero i g hg ha hb (by simpa using hann)
    · rfl

/-- Where the line after a break at a place starts. -/
def resumeAt (gs : List (Glyph ℚ τ)) (p : ℕ) : ℕ :=
  match gs[p]? with
  | some g => if g.split = .replace then p + 1 else p
  | none => p

theorem resumeAt_of_replace {p : ℕ} {g : Glyph ℚ τ} (hg : gs[p]? = some g)
    (h : g.split = .replace) : resumeAt gs p = p + 1 := by
  simp [resumeAt, hg, h]

theorem resumeAt_of_before {p : ℕ} {g : Glyph ℚ τ} (hg : gs[p]? = some g)
    (h : g.split = .before) : resumeAt gs p = p := by
  simp [resumeAt, hg, h]

theorem le_resumeAt (gs : List (Glyph ℚ τ)) (p : ℕ) : p ≤ resumeAt gs p := by
  unfold resumeAt
  split
  · split_ifs <;> omega
  · exact le_rfl

theorem resumeAt_le (gs : List (Glyph ℚ τ)) (p : ℕ) : resumeAt gs p ≤ p + 1 := by
  unfold resumeAt
  split
  · split_ifs <;> omega
  · omega

/-- Whether the glyph is held against the budget of its line. -/
def IsTested (g : Glyph ℚ τ) : Prop :=
  g.annotates = false ∧ (g.split = .none ∨ g.split = .before)

/-- The ink of the glyph at `j` passes the budget of a line that starts at `a`. -/
def Overflows (gs : List (Glyph ℚ τ)) (budget : ℚ) (a j : ℕ) : Prop :=
  ∃ g, gs[j]? = some g ∧ IsTested g ∧ budget < room gs a j + g.width

/-- Between `p` and `n` there is no place to break at, except before a glyph that nothing but room
of no width parts from the glyph replaced at `p`. -/
def NoneAfter (gs : List (Glyph ℚ τ)) (p n : ℕ) : Prop :=
  ∀ q g, gs[q]? = some g → g.annotates = false → p < q → q < n → g.split ≠ .replace ∧
    (g.split = .before → resumeAt gs p = p + 1 ∧ room gs (p + 1) q = 0)

/-- The break at `p` is forced by a glyph at or after the next line, as late as may be. -/
def Forced (gs : List (Glyph ℚ τ)) (budget : ℚ) (a p : ℕ) : Prop :=
  ∃ j, resumeAt gs p ≤ j ∧ Overflows gs budget a j ∧ NoneAfter gs p (j + 1)

/-- A line that starts at `a` may end at the glyph `q`: in its place, or before it if it stands
right of the start, behind a glyph that does not hang. -/
def Usable (gs : List (Glyph ℚ τ)) (a q : ℕ) : Prop :=
  ∃ g, gs[q]? = some g ∧ g.annotates = false ∧ (g.split = .replace ∨ g.split = .before ∧
    0 < room gs a q ∧ ∃ k h, gs[k]? = some h ∧ a ≤ k ∧ k < q ∧ h.annotates = false ∧
      h.split ≠ .hang)

/-- No glyph before `b` passes the budget while the line may end at it or before it. -/
def Tight (gs : List (Glyph ℚ τ)) (budget : ℚ) (a b : ℕ) : Prop :=
  ∀ i < b, a ≤ i → Overflows gs budget a i → ∀ q ≤ i, a ≤ q → ¬ Usable gs a q

theorem Tight.mono {budget : ℚ} {a b c : ℕ} (h : Tight gs budget a c) (hbc : b ≤ c) :
    Tight gs budget a b :=
  fun i hi => h i (by omega)

theorem NoneAfter.not_usable {p n q : ℕ} (h : NoneAfter gs p n) (hq : resumeAt gs p ≤ q)
    (hqn : q < n) : ¬ Usable gs (resumeAt gs p) q := by
  rintro ⟨g, hg, hann, hsplit⟩
  rcases ((le_resumeAt gs p).trans hq).eq_or_lt with rfl | hlt
  · rcases hsplit with hr | ⟨hb, hpos, _⟩
    · rw [resumeAt_of_replace hg hr] at hq
      omega
    · rw [resumeAt_of_before hg hb, room_self] at hpos
      exact absurd hpos (lt_irrefl 0)
  · obtain ⟨hnot, hbefore⟩ := h q g hg hann hlt hqn
    rcases hsplit with hr | ⟨hb, hpos, _⟩
    · exact hnot hr
    · obtain ⟨hres, hzero⟩ := hbefore hb
      rw [hres, hzero] at hpos
      exact absurd hpos (lt_irrefl 0)

theorem NoneAfter.succ {p n : ℕ} (h : NoneAfter gs p n) {g : Glyph ℚ τ} (hg : gs[n]? = some g)
    (hno : g.isOpportunity = false) : NoneAfter gs p (n + 1) := by
  intro q k hk hann hpq hqn
  rcases (Nat.lt_succ_iff.mp hqn).eq_or_lt with rfl | hlt
  · rw [hg] at hk
    obtain rfl := Option.some.inj hk
    obtain ⟨hbefore, hreplace⟩ := not_opportunity hno hann
    exact ⟨hreplace, fun hb => absurd hb hbefore⟩
  · exact h q k hk hann hpq hlt

theorem not_usable_of_not_opportunity {a n : ℕ} {g : Glyph ℚ τ} (hg : gs[n]? = some g)
    (hno : g.isOpportunity = false) : ¬ Usable gs a n := by
  rintro ⟨k, hk, hann, hsplit⟩
  rw [hg] at hk
  obtain rfl := Option.some.inj hk
  obtain ⟨hbefore, hreplace⟩ := not_opportunity hno hann
  rcases hsplit with hr | ⟨hb, _⟩
  · exact hreplace hr
  · exact hbefore hb

/-- Where the line behind the latest of some breaks starts, the latest first. -/
def openStart (gs : List (Glyph ℚ τ)) : List ℕ → ℕ
  | [] => 0
  | p :: _ => resumeAt gs p

/-- The budget of the line behind the latest of some breaks. -/
def openBudget (first rest : ℚ) : List ℕ → ℚ
  | [] => first
  | _ :: _ => rest

/-- Each break, the latest first, ends a line that was filled as far as it goes. -/
def Filled (gs : List (Glyph ℚ τ)) (first rest : ℚ) : List ℕ → Prop
  | [] => True
  | p :: older => (∃ g, gs[p]? = some g ∧ g.isOpportunity = true) ∧
      openStart gs older < resumeAt gs p ∧
      Forced gs (openBudget first rest older) (openStart gs older) p ∧
      Tight gs (openBudget first rest older) (openStart gs older) (resumeAt gs p) ∧
      Filled gs first rest older

end Glyph

open Glyph

namespace Fill

variable {τ : Type} {gs : List (Glyph ℚ τ)} {g : Glyph ℚ τ} {first rest : ℚ} {n m : ℕ}
  {s : Fill ℚ}

/-- A candidate for the end of the line that starts at `a`, when the cursor has reached the glyph
`n` and the glyphs before `m` were looked at as places to break at. -/
structure Pending (gs : List (Glyph ℚ τ)) (a n m : ℕ) (c : Candidate ℚ) : Prop where
  opportunity : ∃ g, gs[c.index]? = some g ∧ g.isOpportunity = true
  start_lt : a < resumeAt gs c.index
  resume_le : resumeAt gs c.index ≤ n
  resume : c.resume = room gs a (resumeAt gs c.index)
  replaces : c.replaces = true → resumeAt gs c.index = c.index + 1
  noneAfter : NoneAfter gs c.index m

/-- What the walk has found out when the cursor has reached the glyph `n` and the glyphs before `m`
were looked at as places to break at. -/
structure Inv (gs : List (Glyph ℚ τ)) (first rest : ℚ) (n m : ℕ) (s : Fill ℚ) : Prop where
  cursor : s.cursor + s.hanging = room gs (openStart gs s.taken) n
  budget : s.budget = openBudget first rest s.taken
  start_le : openStart gs s.taken ≤ n
  start_lt : s.placed = true → openStart gs s.taken < m
  unplaced : s.placed = false → s.candidate = none ∧
    ∀ i g, gs[i]? = some g → i < n → g.annotates = false → g.split = .hang
  pending : ∀ c, s.candidate = some c → Pending gs (openStart gs s.taken) n m c
  spent : s.candidate = none → ∀ q < m, openStart gs s.taken ≤ q →
    ¬ Usable gs (openStart gs s.taken) q
  tight : Tight gs s.budget (openStart gs s.taken) n
  filled : Filled gs first rest s.taken

theorem inv_start (gs : List (Glyph ℚ τ)) (first rest : ℚ) :
    Inv gs first rest 0 0 (start first) where
  cursor := by simp [start, openStart]
  budget := rfl
  start_le := le_rfl
  start_lt := by simp [start]
  unplaced _ := ⟨rfl, fun i g _ hi => absurd hi (Nat.not_lt_zero i)⟩
  pending := by simp [start]
  spent _ q hq := absurd hq (Nat.not_lt_zero q)
  tight i hi := absurd hi (Nat.not_lt_zero i)
  filled := trivial

theorem Inv.settle (h : Inv gs first rest n m s) : Inv gs first rest n m s.settle where
  cursor := by simpa [Fill.settle] using h.cursor
  budget := h.budget
  start_le := h.start_le
  start_lt := h.start_lt
  unplaced := h.unplaced
  pending := h.pending
  spent := h.spent
  tight := h.tight
  filled := h.filled

/-- A glyph that is no place to break at leaves the candidate as it is. -/
theorem Inv.pass (h : Inv gs first rest n n s) (hg : gs[n]? = some g)
    (hno : g.isOpportunity = false) : Inv gs first rest n (n + 1) s where
  cursor := h.cursor
  budget := h.budget
  start_le := h.start_le
  start_lt hplaced := (h.start_lt hplaced).trans (Nat.lt_succ_self n)
  unplaced := h.unplaced
  pending c hc := { h.pending c hc with noneAfter := (h.pending c hc).noneAfter.succ hg hno }
  spent hnone q hq hstart := by
    rcases (Nat.lt_succ_iff.mp hq).eq_or_lt with rfl | hlt
    · exact not_usable_of_not_opportunity hg hno
    · exact h.spent hnone q hlt hstart
  tight := h.tight
  filled := h.filled

/-- Setting a glyph that either fits or leaves no place to break at. -/
theorem Inv.advance (h : Inv gs first rest n (n + 1) s) {cursor hanging : ℚ} {placed : Bool}
    (hcursor : cursor + hanging = room gs (openStart gs s.taken) (n + 1))
    (hplaced : placed = false → s.placed = false ∧
      ∀ g, gs[n]? = some g → g.annotates = false → g.split = .hang)
    (htight : Overflows gs s.budget (openStart gs s.taken) n → s.candidate = none) :
    Inv gs first rest (n + 1) (n + 1) { s with cursor, hanging, placed } where
  cursor := hcursor
  budget := h.budget
  start_le := h.start_le.trans (Nat.le_succ n)
  start_lt _ := Nat.lt_succ_of_le h.start_le
  unplaced hp := by
    obtain ⟨hs, hhang⟩ := hplaced hp
    obtain ⟨hnone, hall⟩ := h.unplaced hs
    refine ⟨hnone, fun i g hg hi hann => ?_⟩
    rcases (Nat.lt_succ_iff.mp hi).eq_or_lt with rfl | hlt
    · exact hhang g hg hann
    · exact hall i g hg hlt hann
  pending c hc := { h.pending c hc with resume_le := (h.pending c hc).resume_le.trans (by omega) }
  spent := h.spent
  tight i hi hstart hover q hq hqstart := by
    rcases (Nat.lt_succ_iff.mp hi).eq_or_lt with rfl | hlt
    · exact h.spent (htight hover) q (by omega) hqstart
    · exact h.tight i hlt hstart hover q hq hqstart
  filled := h.filled

/-- Taking the candidate when the ink of the glyph `n` passes the budget. -/
theorem Inv.breakFor (h : Inv gs first rest n (n + 1) s) (hhang : s.hanging = 0)
    (hg : gs[n]? = some g) (htested : IsTested g) :
    Inv gs first rest n (n + 1) (s.breakFor rest g) ∧ (s.breakFor rest g).hanging = 0 ∧
      (Overflows gs (s.breakFor rest g).budget (openStart gs (s.breakFor rest g).taken) n →
        (s.breakFor rest g).candidate = none) := by
  have hcursor := h.cursor
  rw [hhang, add_zero] at hcursor
  unfold Fill.breakFor
  split_ifs with hover
  · cases hc : s.candidate with
    | none => exact ⟨h, hhang, fun _ => hc⟩
    | some c =>
      have hp := h.pending c hc
      have hfree : ∀ q < n + 1, resumeAt gs c.index ≤ q →
          ¬ Usable gs (resumeAt gs c.index) q :=
        fun q hq hstart => hp.noneAfter.not_usable hstart hq
      have hpast : Overflows gs (openBudget first rest s.taken) (openStart gs s.taken) n := by
        refine ⟨g, hg, htested, ?_⟩
        rw [← h.budget, ← hcursor]
        exact hover
      refine ⟨?_, hhang, fun _ => rfl⟩
      exact
        { cursor := by
            have hroom := room_add gs hp.start_lt.le hp.resume_le
            simp only [openStart, hhang, add_zero]
            rw [hcursor, hp.resume, ← hroom]
            ring
          budget := rfl
          start_le := hp.resume_le
          start_lt := fun _ => Nat.lt_succ_of_le hp.resume_le
          unplaced := fun hplaced => ⟨rfl, (h.unplaced hplaced).2⟩
          pending := fun _ hcand => by cases hcand
          spent := fun _ => hfree
          tight := fun i hi _ _ q hq hstart => hfree q (by omega) hstart
          filled := ⟨hp.opportunity, hp.start_lt, ⟨n, hp.resume_le, hpast, hp.noneAfter⟩,
            h.budget ▸ h.tight.mono hp.resume_le, h.filled⟩ }
  · refine ⟨h, hhang, fun hpast => ?_⟩
    obtain ⟨k, hk, _, hlt⟩ := hpast
    rw [hg] at hk
    obtain rfl := Option.some.inj hk
    rw [← hcursor] at hlt
    exact absurd hlt hover

theorem Inv.put (h : Inv gs first rest n (n + 1) s) (hhang : s.hanging = 0)
    (hg : gs[n]? = some g) (htested : IsTested g) :
    Inv gs first rest (n + 1) (n + 1) ((s.breakFor rest g).put g) := by
  obtain ⟨hbreak, hhang', htight⟩ := h.breakFor hhang hg htested
  refine hbreak.advance ?_ (fun hp => by cases hp) htight
  have hcursor := hbreak.cursor
  rw [hhang', add_zero] at hcursor
  rw [room_succ hbreak.start_le, takes_of_text hg htested.1, hhang', add_zero, hcursor]

/-- A break before the glyph `n` is offered, unless it would end an empty line or follow a space. -/
theorem Inv.offer (h : Inv gs first rest n n s) (hhang : s.hanging = 0) (hg : gs[n]? = some g)
    (hann : g.annotates = false) (hsplit : g.split = .before) :
    Inv gs first rest n (n + 1)
      (if !s.placed || s.afterSpace then s
        else { s with candidate := some ⟨n, s.cursor, false⟩ }) := by
  have hcursor := h.cursor
  rw [hhang, add_zero] at hcursor
  have hresume := resumeAt_of_before hg hsplit
  have hlast : ∀ {q k}, gs[q]? = some k → q < n + 1 → q = n ∧ k = g ∨ q < n := by
    intro q k hk hq
    rcases (Nat.lt_succ_iff.mp hq).eq_or_lt with rfl | hlt
    · exact .inl ⟨rfl, (Option.some.inj (hg.symm.trans hk)).symm⟩
    · exact .inr hlt
  split_ifs with hskip
  · refine
      { h with
        start_lt := fun hplaced => (h.start_lt hplaced).trans (Nat.lt_succ_self n)
        pending := fun c hc => { h.pending c hc with noneAfter := ?_ }
        spent := ?_ }
    · have hp := h.pending c hc
      have hafter : c.replaces = true ∧ c.resume = s.cursor := by
        cases hplaced : s.placed with
        | false => simp [(h.unplaced hplaced).1] at hc
        | true => simpa [hplaced, afterSpace, hc] using hskip
      have hnext := hp.replaces hafter.1
      intro q k hk hkann hq hqn
      rcases hlast hk hqn with ⟨rfl, rfl⟩ | hlt
      · refine ⟨by simp [hsplit], fun _ => ⟨hnext, ?_⟩⟩
        have hroom := room_add gs (hnext ▸ hp.start_lt.le) (hnext ▸ hp.resume_le)
        rw [← hcursor, ← hafter.2, hp.resume, hnext] at hroom
        linarith
      · exact hp.noneAfter q k hk hkann hq hlt
    · intro hnone q hq hstart
      have hplaced : s.placed = false := by simpa [afterSpace, hnone] using hskip
      rintro ⟨k, hk, hkann, husable⟩
      rcases hlast hk hq with ⟨rfl, rfl⟩ | hlt
      · rcases husable with hr | ⟨_, _, i, t, ht, _, hi, htann, hthang⟩
        · simp [hsplit] at hr
        · exact hthang ((h.unplaced hplaced).2 i t ht hi htann)
      · exact h.spent hnone q hlt hstart ⟨k, hk, hkann, husable⟩
  · have hplaced : s.placed = true := by
      cases hplaced : s.placed
      · simp [hplaced] at hskip
      · rfl
    exact
      { h with
        start_lt := fun hplaced => (h.start_lt hplaced).trans (Nat.lt_succ_self n)
        unplaced := fun hfalse => by simp [hplaced] at hfalse
        pending := by
          intro c hc
          obtain rfl := Option.some.inj hc
          exact
            { opportunity := ⟨g, hg, isOpportunity_iff.mpr ⟨hann, .inl hsplit⟩⟩
              start_lt := hresume.symm ▸ h.start_lt hplaced
              resume_le := hresume.le
              resume := hresume.symm ▸ hcursor
              replaces := fun hfalse => by cases hfalse
              noneAfter := fun q k _ _ hq hqn => by simp only at hq; omega }
        spent := fun hnone => by cases hnone }

/-- A replaced glyph is set and becomes the candidate. -/
theorem Inv.replace (h : Inv gs first rest n n s) (hhang : s.hanging = 0) (hg : gs[n]? = some g)
    (hann : g.annotates = false) (hsplit : g.split = .replace) :
    Inv gs first rest (n + 1) (n + 1)
      { s.put g with candidate := some ⟨n, (s.put g).cursor, true⟩ } := by
  have hcursor := h.cursor
  rw [hhang, add_zero] at hcursor
  have hresume := resumeAt_of_replace hg hsplit
  have hput : s.cursor + g.advance = room gs (openStart gs s.taken) (n + 1) := by
    rw [room_succ h.start_le, takes_of_text hg hann, ← hcursor]
  exact
    { cursor := by simpa [Fill.put, hhang] using hput
      budget := h.budget
      start_le := h.start_le.trans (Nat.le_succ n)
      start_lt := fun _ => Nat.lt_succ_of_le h.start_le
      unplaced := fun hfalse => by cases hfalse
      pending := by
        intro c hc
        obtain rfl := Option.some.inj hc
        exact
          { opportunity := ⟨g, hg, isOpportunity_iff.mpr ⟨hann, .inr hsplit⟩⟩
            start_lt := hresume.symm ▸ Nat.lt_succ_of_le h.start_le
            resume_le := hresume.le
            resume := hresume.symm ▸ hput
            replaces := fun _ => hresume
            noneAfter := fun q k _ _ hq hqn => by simp only at hq; omega }
      spent := fun hnone => by cases hnone
      tight := by
        intro i hi hstart hover q hq hqstart
        rcases (Nat.lt_succ_iff.mp hi).eq_or_lt with rfl | hlt
        · obtain ⟨k, hk, htested, _⟩ := hover
          rw [hg] at hk
          obtain rfl := Option.some.inj hk
          simp [IsTested, hsplit] at htested
        · exact h.tight i hlt hstart hover q hq hqstart
      filled := h.filled }

theorem Inv.step (h : Inv gs first rest n n s) (hg : gs[n]? = some g) :
    Inv gs first rest (n + 1) (n + 1) (s.step rest (g, n)) := by
  have huntested : ¬ IsTested g → ∀ {budget a}, ¬ Overflows gs budget a n := by
    rintro hno _ _ ⟨k, hk, htested, _⟩
    rw [hg] at hk
    exact hno (Option.some.inj hk ▸ htested)
  have hsame : ∀ k, gs[n]? = some k → k = g := fun k hk => Option.some.inj (hk.symm.trans hg)
  unfold Fill.step
  dsimp only
  by_cases hann : g.annotates = true
  · rw [if_pos hann]
    refine (h.pass hg (by simp [isOpportunity, hann])).advance ?_ ?_ ?_
    · rw [room_succ h.start_le, takes_of_annotates hg hann, add_zero]
      exact h.cursor
    · intro hplaced
      refine ⟨hplaced, fun k hk hkann => ?_⟩
      rw [hsame k hk, hann] at hkann
      cases hkann
    · exact fun hover => absurd hover (huntested (by simp [IsTested, hann]))
  · rw [if_neg hann]
    rw [Bool.not_eq_true] at hann
    cases hsplit : g.split with
    | none =>
      exact (h.settle.pass hg (by simp [isOpportunity, hsplit])).put rfl hg ⟨hann, .inl hsplit⟩
    | before =>
      exact (h.settle.offer rfl hg hann hsplit).put (by split_ifs <;> rfl) hg
        ⟨hann, .inr hsplit⟩
    | replace => exact h.settle.replace rfl hg hann hsplit
    | hang =>
      refine (h.pass hg (by simp [isOpportunity, hsplit])).advance ?_ ?_ ?_
      · rw [room_succ h.start_le, takes_of_text hg hann, ← h.cursor]
        ring
      · exact fun hplaced => ⟨hplaced, fun k hk _ => hsame k hk ▸ hsplit⟩
      · exact fun hover => absurd hover (huntested (by simp [IsTested, hsplit]))

/-- What the walk has found out at the end of the text. -/
theorem inv_takenBreaks (gs : List (Glyph ℚ τ)) (first rest : ℚ) :
    ∃ s : Fill ℚ, s.taken = takenBreaks first rest gs ∧
      Inv gs first rest gs.length gs.length s :=
  ⟨_, rfl, foldl_zipIdx_run (P := fun n s => Inv gs first rest n n s) (inv_start gs first rest)
    fun _ _ _ hg h => h.step hg⟩

end Fill

end Typeset
