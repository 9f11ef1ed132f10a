import Typeset.Proofs.KeptBreaks

/-!
# Breaking a broken text

A second walk, over the text that the first one broke, meets only breaks that the first has taken.
It holds the candidate of the first where that one is taken later and none elsewhere, and for the
rest it is in the same state: where the first walk tests a glyph without taking its candidate, the
second has either the same candidate or nothing to take. So it takes the same breaks. No law of the
numbers is asked for.
-/

namespace Typeset

/-- A glyph without its break, unless that one is taken. -/
def Glyph.pruned {α τ : Type} (taken : List ℕ) (gi : Glyph α τ × ℕ) : Glyph α τ :=
  if gi.1.isOpportunity && !taken.contains gi.2 then { gi.1 with split := .none } else gi.1

theorem Glyph.pruned_pruned {α τ : Type} (taken : List ℕ) (g : Glyph α τ) (i : ℕ) :
    pruned taken (pruned taken (g, i), i) = pruned taken (g, i) := by
  by_cases hdrop : (g.isOpportunity && !taken.contains i) = true
  · have hbare : pruned taken (g, i) = { g with split := .none } := if_pos hdrop
    rw [hbare, pruned]
    split_ifs <;> rfl
  · have hsame : pruned taken (g, i) = g := if_neg hdrop
    rw [hsame, hsame]

open Glyph

namespace Fill

section Foresight

variable {α τ : Type} {gs : List (Glyph α τ)} {n p : ℕ} {s t : Fill α} {taken : List ℕ}
  {c : Candidate α}

/-- A place to break at that the walk has taken or may take. -/
def Knows (s : Fill α) (p : ℕ) : Prop := p ∈ s.taken ∨ ∃ c, s.candidate = some c ∧ c.index = p

/-- The breaks taken in the end, as far as they are settled before glyph `n`: the breaks taken so
far are among them, and the walk knows all of them but those that lie ahead. -/
structure Foresees (taken : List ℕ) (n : ℕ) (s : Fill α) : Prop where
  subset : s.taken ⊆ taken
  knows : ∀ p ∈ taken, s.Knows p ∨ n ≤ p

/-- The same state with another candidate. -/
def hold (s : Fill α) (c : Candidate α) : Fill α := { s with candidate := some c }

/-- The same state without a candidate. -/
def forget (s : Fill α) : Fill α := { s with candidate := none }

/-- The same state, with its candidate only if that one is taken in the end. -/
def keeping (taken : List ℕ) (s : Fill α) : Fill α :=
  { s with candidate := s.candidate.filter fun c => taken.contains c.index }

theorem keeping_hold_of_mem (h : c.index ∈ taken) (s : Fill α) :
    (s.hold c).keeping taken = s.hold c := by
  simp [keeping, hold, Option.filter_some, h]

theorem keeping_hold_of_not_mem (h : c.index ∉ taken) (s : Fill α) :
    (s.hold c).keeping taken = s.forget := by
  simp [keeping, hold, forget, Option.filter_some, h]

theorem Knows.of_hold (h : (s.hold c).Knows p) : p ∈ s.taken ∨ p = c.index := by
  rcases h with hp | ⟨d, hd, rfl⟩
  · exact .inl hp
  · obtain rfl := Option.some.inj hd
    exact .inr rfl

/-- The walk knows of no place that it has not come to. -/
theorem Spaced.not_knows (h : Spaced gs n s) : ¬ s.Knows n := by
  rintro (hp | ⟨c, hc, hp⟩)
  · exact absurd (h.stands n hp).lt (lt_irrefl n)
  · exact absurd (h.waits c hc).lt (by omega)

/-- A candidate that the walk has forgotten once glyph `n` is set is not taken in the end. -/
theorem Spaced.keeping_eq (h : Spaced gs n s) (hend : Foresees taken (n + 1) t)
    (hforgets : ∀ p, t.Knows p → p ∈ s.taken ∨ p = n) : s.keeping taken = s.forget := by
  rw [keeping, forget]
  congr 1
  rw [Option.filter_eq_none_iff]
  intro c hc hmem
  obtain ⟨_, hlt, hbehind⟩ := h.waits c hc
  rcases hend.knows c.index (List.contains_iff_mem.mp hmem) with hknows | hge
  · rcases hforgets c.index hknows with hold | hn
    · exact absurd (hbehind c.index hold).lt (lt_irrefl _)
    · omega
  · omega

end Foresight

variable {α τ : Type} [Scalar α] {gs : List (Glyph α τ)} {g : Glyph α τ} {rest : α} {n p : ℕ}
  {s t : Fill α} {taken : List ℕ}

theorem Offers.knows {c : Candidate α} (h : Offers s g n (some c)) :
    s.Knows c.index ∨ c.index = n := by
  generalize hoffer : some c = offer at h
  cases h with
  | held => exact .inl (.inr ⟨c, hoffer.symm, rfl⟩)
  | before =>
    obtain rfl := Option.some.inj hoffer
    exact .inr rfl

/-- A glyph lets the walk know of no place but its own. -/
theorem Moves.knows (h : Moves s g n t) (hp : t.Knows p) : s.Knows p ∨ p = n := by
  cases h with
  | skip _ _ hcand htaken =>
    rw [Knows, hcand, htaken] at hp
    exact .inl hp
  | replace _ _ _ hcand htaken =>
    rw [Knows, hcand, htaken] at hp
    rcases hp with hp | ⟨c, hc, rfl⟩
    · exact .inl (.inl hp)
    · obtain rfl := Option.some.inj hc
      exact .inr rfl
  | set _ _ hcand htaken =>
    rw [Knows, htaken] at hp
    rcases hp with hp | ⟨c, hc, rfl⟩
    · exact .inl (.inl hp)
    · exact (hc ▸ hcand).knows
  | take _ _ c hcand hnone htaken =>
    rw [Knows, hnone, htaken, List.mem_cons] at hp
    rcases hp with (rfl | hp) | ⟨d, hd, _⟩
    · exact hcand.knows
    · exact .inl (.inl hp)
    · cases hd

theorem Moves.taken_subset (h : Moves s g n t) : s.taken ⊆ t.taken := by
  cases h with
  | skip _ _ _ htaken => exact htaken ▸ List.Subset.refl _
  | replace _ _ _ _ htaken => exact htaken ▸ List.Subset.refl _
  | set _ _ _ htaken => exact htaken ▸ List.Subset.refl _
  | take _ _ c _ _ htaken => exact htaken ▸ List.subset_cons_self ..

/-- Every state of a walk foresees what the walk takes in the end. -/
theorem foresees_run (rest : α) (l : List (Glyph α τ)) (n : ℕ) (s : Fill α) :
    Foresees ((l.zipIdx n).foldl (step rest) s).taken n s := by
  induction l generalizing n s with
  | nil => exact ⟨List.Subset.refl _, fun p hp => .inl (.inl hp)⟩
  | cons g l ih =>
    rw [List.zipIdx_cons, List.foldl_cons]
    have hmoves := moves_step rest s g n
    obtain ⟨hsubset, hknows⟩ := ih (n + 1) (s.step rest (g, n))
    refine ⟨List.Subset.trans hmoves.taken_subset hsubset, fun p hp => ?_⟩
    rcases hknows p hp with h | h
    · exact (hmoves.knows h).imp_right Eq.ge
    · exact .inr (Nat.le_of_succ_le h)

section Steps

variable (hann : g.annotates = false)

include hann

/-- A glyph without a break is tested and set. -/
theorem step_none (hsplit : g.split = .none) : s.step rest (g, n) =
    (s.settle.breakFor rest g).put g := by
  simp [step, hann, hsplit]

theorem step_bare : s.step rest ({ g with split := .none }, n) =
    (s.settle.breakFor rest g).put g := by
  have hann' : ({ g with split := .none } : Glyph α τ).annotates = false := hann
  exact step_none hann' rfl

theorem step_replace (hsplit : g.split = .replace) : s.step rest (g, n) =
    (s.settle.put g).hold ⟨n, (s.settle.put g).cursor, true⟩ := by
  simp [step, hold, hann, hsplit]

/-- A break before a glyph is offered behind text, unless a replaced glyph stands right before. -/
theorem step_offer (hsplit : g.split = .before) (hplaced : s.placed = true)
    (hspace : s.settle.afterSpace = false) : s.step rest (g, n) =
      ((s.settle.hold ⟨n, s.settle.cursor, false⟩).breakFor rest g).put g := by
  have hplaced' : s.settle.placed = true := hplaced
  simp [step, hold, hann, hsplit, hplaced', hspace]

theorem step_unoffered (hsplit : g.split = .before)
    (hskip : ¬ (s.placed = true ∧ s.settle.afterSpace = false)) :
    s.step rest (g, n) = (s.settle.breakFor rest g).put g := by
  have hskip' : (!s.settle.placed || s.settle.afterSpace) = true := by
    rw [not_and, Bool.not_eq_false] at hskip
    cases hplaced : s.placed with
    | true => simp [hskip hplaced]
    | false => simp [settle, hplaced]
  simp [step, hann, hsplit, hskip']

end Steps

/-- Testing a glyph lets the walk know of no place. -/
theorem Knows.of_breakFor (h : (s.breakFor rest g).Knows p) : s.Knows p := by
  unfold breakFor at h
  split_ifs at h
  · cases hc : s.candidate with
    | none =>
      rw [hc] at h
      exact h
    | some c =>
      rw [hc] at h
      rcases h with h | ⟨d, hd, _⟩
      · rcases List.mem_cons.mp h with rfl | h
        · exact .inr ⟨c, hc, rfl⟩
        · exact .inl h
      · cases hd
  · exact h

theorem breakFor_forget (rest : α) (s : Fill α) (g : Glyph α τ) :
    s.forget.breakFor rest g = s.forget := by
  unfold breakFor
  split_ifs <;> rfl

/-- Where a glyph is tested, the second walk takes a candidate exactly if the first does. -/
theorem keeping_breakFor (h : (s.breakFor rest g).taken ⊆ taken) :
    (s.breakFor rest g).keeping taken = (s.keeping taken).breakFor rest g := by
  by_cases hover : s.budget < s.cursor + g.width
  · cases hc : s.candidate with
    | none => simp [breakFor, keeping, hover, hc]
    | some c =>
      have hmem : c.index ∈ taken := by
        apply h
        simp [breakFor, hover, hc]
      simp [breakFor, keeping, hover, hc, Option.filter_some, hmem]
  · simp [breakFor, keeping, hover]

section Keeping

variable (h : Spaced gs n s) (hann : g.annotates = false)
  (hend : Foresees taken (n + 1) (s.step rest (g, n)))

theorem keeping_put (hend : Foresees taken (n + 1) ((s.settle.breakFor rest g).put g)) :
    ((s.settle.breakFor rest g).put g).keeping taken =
      ((s.keeping taken).settle.breakFor rest g).put g :=
  congrArg (put · g) (keeping_breakFor hend.subset)

include h hann hend

/-- A replaced glyph makes the walk forget its candidate, so the second walk held none. -/
theorem keeping_replace (hsplit : g.split = .replace) :
    (s.step rest (g, n)).keeping taken =
      (s.keeping taken).step rest (pruned taken (g, n), n) := by
  rw [step_replace hann hsplit] at hend ⊢
  rw [h.keeping_eq hend fun p hp => hp.of_hold]
  by_cases hmem : n ∈ taken
  · have hsame : pruned taken (g, n) = g := by simp [pruned, hmem]
    rw [hsame, step_replace hann hsplit, keeping_hold_of_mem hmem]
    rfl
  · have hbare : pruned taken (g, n) = { g with split := .none } := by
      simp [pruned, isOpportunity, hann, hsplit, hmem]
    rw [hbare, step_bare hann, keeping_hold_of_not_mem hmem]
    exact congrArg (put · g) (breakFor_forget rest s.settle g).symm

/-- So does a break before a glyph where it is offered. -/
theorem keeping_offer (hsplit : g.split = .before) (hplaced : s.placed = true)
    (hspace : s.settle.afterSpace = false) :
    (s.step rest (g, n)).keeping taken =
      (s.keeping taken).step rest (pruned taken (g, n), n) := by
  rw [step_offer hann hsplit hplaced hspace] at hend ⊢
  have hforgets := h.keeping_eq hend fun p hp => (Knows.of_breakFor hp).of_hold
  have hkept := congrArg (put · g) (keeping_breakFor hend.subset)
  refine hkept.trans ?_
  rw [hforgets]
  by_cases hmem : n ∈ taken
  · have hsame : pruned taken (g, n) = g := by simp [pruned, hmem]
    have hstep : s.forget.step rest (g, n) =
        ((s.settle.hold ⟨n, s.settle.cursor, false⟩).breakFor rest g).put g :=
      step_offer hann hsplit hplaced rfl
    rw [hsame, hstep, keeping_hold_of_mem hmem]
  · have hbare : pruned taken (g, n) = { g with split := .none } := by
      simp [pruned, isOpportunity, hann, hsplit, hmem]
    rw [hbare, step_bare hann, keeping_hold_of_not_mem hmem]
    rfl

/-- Where it is not offered, it is not taken in the end, and the glyph is only tested. -/
theorem keeping_unoffered (hsplit : g.split = .before)
    (hskip : ¬ (s.placed = true ∧ s.settle.afterSpace = false)) :
    (s.step rest (g, n)).keeping taken =
      (s.keeping taken).step rest (pruned taken (g, n), n) := by
  rw [step_unoffered hann hsplit hskip] at hend ⊢
  have hmem : n ∉ taken := by
    intro hmem
    rcases hend.knows n hmem with hknows | hlt
    · exact h.not_knows (Knows.of_breakFor (s := s.settle) hknows)
    · omega
  have hbare : pruned taken (g, n) = { g with split := .none } := by
    simp [pruned, isOpportunity, hann, hsplit, hmem]
  rw [hbare, step_bare hann]
  exact keeping_put hend

end Keeping

/-- The second walk keeps up with the first: it meets every glyph without its break, unless that one
is taken. -/
theorem keeping_step (h : Spaced gs n s) (hend : Foresees taken (n + 1) (s.step rest (g, n))) :
    (s.step rest (g, n)).keeping taken =
      (s.keeping taken).step rest (pruned taken (g, n), n) := by
  cases hann : g.annotates with
  | true => simp [pruned, isOpportunity, step, hann]
  | false =>
    cases hsplit : g.split with
    | hang => simp [pruned, isOpportunity, step, keeping, hann, hsplit]
    | none =>
      have hsame : pruned taken (g, n) = g := by simp [pruned, isOpportunity, hsplit]
      rw [step_none hann hsplit] at hend ⊢
      rw [hsame, step_none hann hsplit]
      exact keeping_put hend
    | replace => exact keeping_replace h hann hend hsplit
    | before =>
      by_cases hoffer : s.placed = true ∧ s.settle.afterSpace = false
      · exact keeping_offer h hann hend hsplit hoffer.1 hoffer.2
      · exact keeping_unoffered h hann hend hsplit hoffer

/-- From a state of the first walk on, the second walk stays with it. -/
theorem keeping_run (rest : α) {done l : List (Glyph α τ)} (hgs : gs = done ++ l)
    (h : Spaced gs done.length s)
    (htaken : ((l.zipIdx done.length).foldl (step rest) s).taken = taken) :
    ((l.zipIdx done.length).foldl (step rest) s).keeping taken =
      (l.zipIdx done.length).foldl (fun t gi => t.step rest (pruned taken gi, gi.2))
        (s.keeping taken) := by
  induction l generalizing s done with
  | nil => rfl
  | cons g l ih =>
    have hg : gs[done.length]? = some g := by simp [hgs]
    have hend := foresees_run rest l (done.length + 1) (s.step rest (g, done.length))
    rw [List.zipIdx_cons, List.foldl_cons] at htaken ⊢
    rw [htaken] at hend
    have hnext := h.step hg (moves_step rest s g done.length)
    have hrun := @ih (s.step rest (g, done.length)) (done ++ [g]) (by simp [hgs])
      (by simpa using hnext) (by simpa using htaken)
    rw [List.length_append, List.length_singleton, keeping_step h hend] at hrun
    exact hrun

end Fill

namespace Glyph

variable {α τ : Type} [Scalar α]

theorem breakGreedy_eq_map (first rest : α) (gs : List (Glyph α τ)) :
    breakGreedy first rest gs = gs.zipIdx.map (pruned (takenBreaks first rest gs)) := rfl

/-- The second walk takes the breaks that the first has taken. -/
theorem takenBreaks_breakGreedy (first rest : α) (gs : List (Glyph α τ)) :
    takenBreaks first rest (breakGreedy first rest gs) = takenBreaks first rest gs := by
  have hrun := Fill.keeping_run rest
    (List.nil_append gs).symm (Fill.spaced_start gs first) rfl
  have hnumbered : (breakGreedy first rest gs).zipIdx =
      gs.zipIdx.map fun gi => (pruned (takenBreaks first rest gs) gi, gi.2) := by
    apply List.ext_getElem?
    intro i
    simp [breakGreedy_eq_map, List.getElem?_zipIdx, Function.comp_def]
  rw [takenBreaks, hnumbered, List.foldl_map]
  exact (congrArg Fill.taken hrun).symm

/-- Breaking a broken text again changes nothing. -/
theorem breakGreedy_idem (first rest : α) (gs : List (Glyph α τ)) :
    breakGreedy first rest (breakGreedy first rest gs) = breakGreedy first rest gs := by
  apply List.ext_getElem?
  intro i
  rw [breakGreedy_eq_map, takenBreaks_breakGreedy, breakGreedy_eq_map]
  simp [List.getElem?_zipIdx, Function.comp_def, pruned_pruned]

end Glyph

end Typeset
