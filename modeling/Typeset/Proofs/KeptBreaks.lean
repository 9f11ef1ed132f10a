import Typeset.Break.Greedy
import Typeset.Proofs.BaseRuns
import Typeset.Proofs.Sweep

/-!
# The breaks that are left

The breaker removes breaks and changes nothing else. It takes a break only when a glyph behind the
break is set, and from there looks for the next one, so no line it leaves is blank and there is one
line more than there are breaks. No law of the numbers is asked for: this holds of rounded widths
and of widths that are not numbers.
-/

namespace Typeset

section Pieces

variable {β : Type}

theorem length_splitBy_loop (r : β → β → Bool) (l : List β) (a : β) (run : List β)
    (done : List (List β)) : (List.splitBy.loop r l a run done).length =
      done.length + ((a :: l).zip l).countP (fun p => !r p.1 p.2) + 1 := by
  induction l generalizing a run done with
  | nil => simp [List.splitBy.loop]
  | cons b l ih =>
    rw [List.splitBy.loop, List.zip_cons_cons, List.countP_cons]
    cases hr : r a b with
    | true => simp [ih]
    | false =>
      simp [ih]
      omega

/-- A text has one piece more than there are places at which it comes apart. -/
theorem length_splitBy (r : β → β → Bool) (a : β) (l : List β) :
    ((a :: l).splitBy r).length = ((a :: l).zip l).countP (fun p => !r p.1 p.2) + 1 := by
  rw [List.splitBy, length_splitBy_loop, List.length_nil, Nat.zero_add]

end Pieces

namespace Glyph

variable {α τ : Type} {gs : List (Glyph α τ)} {g : Glyph α τ} {a b i n : ℕ}

/-- Whether a line may end at the glyph or before it. -/
def breaks (g : Glyph α τ) : Bool := g.split == .before || g.split == .replace

theorem breaks_iff : g.breaks = true ↔ g.split = .before ∨ g.split = .replace := by
  simp [breaks]

/-- Text that takes its place on the line as soon as it is reached. -/
def Settles (g : Glyph α τ) : Prop := g.annotates = false ∧ g.split ≠ .hang

/-- Text that takes its place on the line and keeps it, whatever breaks are taken. -/
def Stands (g : Glyph α τ) : Prop := g.Settles ∧ g.split ≠ .replace

/-- Text that stands on its line is found between two positions. -/
def StandsIn (gs : List (Glyph α τ)) (a b : ℕ) : Prop :=
  ∃ i g, gs[i]? = some g ∧ a ≤ i ∧ i < b ∧ g.Stands

theorem StandsIn.lt (h : StandsIn gs a b) : a < b := by
  obtain ⟨i, _, _, ha, hb, _⟩ := h
  exact ha.trans_lt hb

theorem StandsIn.succ (h : StandsIn gs a b) : StandsIn gs a (b + 1) := by
  obtain ⟨i, g, hg, ha, hb, hstands⟩ := h
  exact ⟨i, g, hg, ha, hb.trans (Nat.lt_succ_self b), hstands⟩

/-- A break that the breaker may take: one in the text, with text set before it unless it replaces
its glyph. -/
def Breakable (gs : List (Glyph α τ)) (p : ℕ) : Prop :=
  ∃ g, gs[p]? = some g ∧ g.isOpportunity = true ∧
    (g.split = .before → ∃ i h, gs[i]? = some h ∧ i < p ∧ h.Settles)

end Glyph

open Glyph

namespace Fill

variable {α τ : Type} [Scalar α] {gs : List (Glyph α τ)} {g : Glyph α τ} {n : ℕ} {s t : Fill α}

/-- The candidates that the walk may hold when it sets glyph `n`: the one it held, or a break before
the glyph, if the line holds one and no replaced glyph right before it. -/
inductive Offers (s : Fill α) (g : Glyph α τ) (n : ℕ) : Option (Candidate α) → Prop
  | held : Offers s g n s.candidate
  | before (hsplit : g.split = .before) (hplaced : s.placed = true)
      (hspace : s.settle.afterSpace = false) : Offers s g n (some ⟨n, s.settle.cursor, false⟩)

/-- What glyph `n` does to the line being filled, the cursor and the budget apart. -/
inductive Moves (s : Fill α) (g : Glyph α τ) (n : ℕ) (t : Fill α) : Prop
  | skip (hg : ¬ g.Settles) (hplaced : t.placed = s.placed) (hcand : t.candidate = s.candidate)
      (htaken : t.taken = s.taken)
  | replace (hg : g.Settles) (hsplit : g.split = .replace) (hplaced : t.placed = true)
      (hcand : t.candidate = some ⟨n, t.cursor, true⟩) (htaken : t.taken = s.taken)
  | set (hg : g.Stands) (hplaced : t.placed = true) (hcand : Offers s g n t.candidate)
      (htaken : t.taken = s.taken)
  | take (hg : g.Stands) (hplaced : t.placed = true) (c : Candidate α)
      (hcand : Offers s g n (some c)) (hnone : t.candidate = none)
      (htaken : t.taken = c.index :: s.taken)

/-- Setting a glyph takes the candidate or leaves it. -/
theorem moves_put {rest : α} {u : Fill α} (hg : g.Stands) (hcand : Offers s g n u.candidate)
    (htaken : u.taken = s.taken) : Moves s g n ((u.breakFor rest g).put g) := by
  unfold breakFor
  split_ifs with hover
  · cases hc : u.candidate with
    | none => exact .set hg rfl (by simpa [put, hc] using hc ▸ hcand) htaken
    | some c => exact .take hg rfl c (hc ▸ hcand) rfl (by simp [put, htaken])
  · exact .set hg rfl hcand htaken

theorem moves_step (rest : α) (s : Fill α) (g : Glyph α τ) (n : ℕ) :
    Moves s g n (s.step rest (g, n)) := by
  unfold step
  dsimp only
  cases hann : g.annotates with
  | true =>
    have hno : ¬ g.Settles := by
      intro hg
      simp [Settles, hann] at hg
    simpa using Moves.skip hno rfl rfl rfl
  | false =>
    simp only [Bool.false_eq_true, if_false]
    cases hsplit : g.split with
    | hang => exact .skip (fun hg => hg.2 hsplit) rfl rfl rfl
    | replace => exact .replace ⟨hann, by simp [hsplit]⟩ hsplit rfl rfl rfl
    | none =>
      have hg : g.Stands := ⟨⟨hann, by simp [hsplit]⟩, by simp [hsplit]⟩
      exact moves_put hg .held rfl
    | before =>
      have hg : g.Stands := ⟨⟨hann, by simp [hsplit]⟩, by simp [hsplit]⟩
      split_ifs with hskip
      · exact moves_put hg .held rfl
      · have hoffer : s.placed = true ∧ s.settle.afterSpace = false := by
          simpa [settle] using hskip
        exact moves_put hg (.before hsplit hoffer.1 hoffer.2) rfl

/-- A candidate before position `n`, with text that stands between it and every break taken. -/
structure Waits (gs : List (Glyph α τ)) (taken : List ℕ) (n : ℕ) (c : Candidate α) : Prop where
  breakable : Breakable gs c.index
  lt : c.index < n
  behind : ∀ p ∈ taken, StandsIn gs p c.index

/-- Before glyph `n`, text stands behind every break taken, before the next one. -/
structure Spaced (gs : List (Glyph α τ)) (n : ℕ) (s : Fill α) : Prop where
  placed : s.placed = true → ∃ i g, gs[i]? = some g ∧ i < n ∧ g.Settles
  waits : ∀ c, s.candidate = some c → Waits gs s.taken n c
  breakable : ∀ p ∈ s.taken, Breakable gs p
  stands : ∀ p ∈ s.taken, StandsIn gs p n
  apart : s.taken.Pairwise fun q p => StandsIn gs p q

theorem spaced_start (gs : List (Glyph α τ)) (first : α) : Spaced gs 0 (start first) where
  placed h := by cases h
  waits c h := by cases h
  breakable p h := by cases h
  stands p h := by cases h
  apart := .nil

theorem Spaced.offered (h : Spaced gs n s) (hg : gs[n]? = some g) {c : Candidate α}
    (hc : Offers s g n (some c)) (hann : g.annotates = false) : Waits gs s.taken (n + 1) c := by
  generalize hoffer : some c = offer at hc
  cases hc with
  | held =>
    have hwaits := h.waits c hoffer.symm
    exact ⟨hwaits.breakable, hwaits.lt.trans (Nat.lt_succ_self n), hwaits.behind⟩
  | before hsplit hplaced _ =>
    obtain rfl := Option.some.inj hoffer
    have hopp : g.isOpportunity = true := by simp [isOpportunity, hann, hsplit]
    exact ⟨⟨g, hg, hopp, fun _ => h.placed hplaced⟩, Nat.lt_succ_self n, h.stands⟩

/-- What every glyph keeps. -/
theorem Spaced.step (h : Spaced gs n s) (hg : gs[n]? = some g) (ht : Moves s g n t) :
    Spaced gs (n + 1) t := by
  have hnext : ∀ p ∈ s.taken, StandsIn gs p (n + 1) := fun p hp => (h.stands p hp).succ
  cases ht with
  | skip _ hplaced hcand htaken =>
    constructor
    · intro hp
      obtain ⟨i, k, hk, hi, hsettles⟩ := h.placed (hplaced ▸ hp)
      exact ⟨i, k, hk, hi.trans (Nat.lt_succ_self n), hsettles⟩
    · intro c hc
      have hwaits := h.waits c (hcand ▸ hc)
      exact ⟨hwaits.breakable, hwaits.lt.trans (Nat.lt_succ_self n), htaken ▸ hwaits.behind⟩
    · exact htaken ▸ h.breakable
    · exact htaken ▸ hnext
    · exact htaken ▸ h.apart
  | replace hset hsplit _ hcand htaken =>
    constructor
    · exact fun _ => ⟨n, g, hg, Nat.lt_succ_self n, hset⟩
    · intro c hc
      obtain rfl := Option.some.inj (hcand.symm.trans hc)
      have hopp : g.isOpportunity = true := by simp [isOpportunity, hset.1, hsplit]
      have hbreak : Breakable gs n := ⟨g, hg, hopp, fun hb => by simp [hsplit] at hb⟩
      exact ⟨hbreak, Nat.lt_succ_self n, htaken ▸ h.stands⟩
    · exact htaken ▸ h.breakable
    · exact htaken ▸ hnext
    · exact htaken ▸ h.apart
  | set hset _ hcand htaken =>
    constructor
    · exact fun _ => ⟨n, g, hg, Nat.lt_succ_self n, hset.1⟩
    · intro c hc
      exact htaken ▸ h.offered hg (hc ▸ hcand) hset.1.1
    · exact htaken ▸ h.breakable
    · exact htaken ▸ hnext
    · exact htaken ▸ h.apart
  | take hset _ c hcand hnone htaken =>
    have hwaits := h.offered hg hcand hset.1.1
    have hstands : StandsIn gs c.index (n + 1) :=
      ⟨n, g, hg, Nat.le_of_lt_succ hwaits.lt, Nat.lt_succ_self n, hset⟩
    constructor
    · exact fun _ => ⟨n, g, hg, Nat.lt_succ_self n, hset.1⟩
    · intro d hd
      rw [hnone] at hd
      cases hd
    · rw [htaken, List.forall_mem_cons]
      exact ⟨hwaits.breakable, h.breakable⟩
    · rw [htaken, List.forall_mem_cons]
      exact ⟨hstands, hnext⟩
    · rw [htaken]
      exact .cons hwaits.behind h.apart

/-- The breaks taken, at the end of the text. -/
theorem spaced_takenBreaks (first rest : α) (gs : List (Glyph α τ)) :
    ∃ s : Fill α, s.taken = takenBreaks first rest gs ∧ Spaced gs gs.length s :=
  ⟨_, rfl, foldl_zipIdx_run (P := Spaced gs) (spaced_start gs first)
    fun n g s hg h => h.step hg (moves_step rest s g n)⟩

end Fill

namespace Glyph

variable {α τ : Type} [Scalar α] {first rest : α} {gs : List (Glyph α τ)} {g k : Glyph α τ}
  {b i p q : ℕ}

theorem getElem?_breakGreedy (first rest : α) (gs : List (Glyph α τ)) (i : ℕ) :
    (breakGreedy first rest gs)[i]? = gs[i]?.map fun g =>
      if g.isOpportunity && !(takenBreaks first rest gs).contains i then { g with split := .none }
      else g := by
  simp [breakGreedy, List.getElem?_zipIdx, Function.comp_def]

theorem length_breakGreedy (first rest : α) (gs : List (Glyph α τ)) :
    (breakGreedy first rest gs).length = gs.length := by
  simp [breakGreedy]

/-- A break that is left was there before, and it was taken. -/
theorem taken_of_breaks (hann : AnnotationsUnbroken gs)
    (hk : (breakGreedy first rest gs)[i]? = some k) (hbreaks : k.breaks = true) :
    gs[i]? = some k ∧ i ∈ takenBreaks first rest gs := by
  rw [getElem?_breakGreedy] at hk
  obtain ⟨g, hg, hif⟩ := Option.map_eq_some_iff.mp hk
  split_ifs at hif with hdrop
  · rw [← hif] at hbreaks
    simp [breaks] at hbreaks
  · subst hif
    have htext : g.annotates = false := by
      by_contra hg'
      obtain ⟨hbefore, hreplace⟩ := hann g (List.mem_of_getElem? hg) (by simpa using hg')
      exact (breaks_iff.mp hbreaks).elim hbefore hreplace
    have hopp : g.isOpportunity = true := by
      simp only [isOpportunity, htext, Bool.not_false, Bool.true_and]
      exact hbreaks
    exact ⟨hg, by simpa [hopp] using hdrop⟩

/-- The glyph at a place of the broken text: as it was, or a break in the text removed. -/
theorem exists_breakGreedy (first rest : α) (hg : gs[i]? = some g) :
    ∃ k, (breakGreedy first rest gs)[i]? = some k ∧
      (k = g ∨ g.isOpportunity = true ∧ k = { g with split := .none }) := by
  rw [getElem?_breakGreedy, hg]
  refine ⟨_, rfl, ?_⟩
  dsimp only
  split_ifs with hdrop
  · rw [Bool.and_eq_true] at hdrop
    exact .inr ⟨hdrop.1, rfl⟩
  · exact .inl rfl

theorem StandsIn.breakGreedy (h : StandsIn gs p q) : StandsIn (breakGreedy first rest gs) p q := by
  obtain ⟨i, g, hg, hp, hq, hstands⟩ := h
  obtain ⟨k, hk, hkg⟩ := exists_breakGreedy first rest hg
  rcases hkg with rfl | ⟨_, rfl⟩
  · exact ⟨i, k, hk, hp, hq, hstands⟩
  · exact ⟨i, _, hk, hp, hq, ⟨hstands.1.1, by simp⟩, by simp⟩

end Glyph

section Apart

namespace Glyph

variable {α τ : Type} {gs : List (Glyph α τ)} {g : Glyph α τ} {b i p q : ℕ}

/-- A line may end at the glyph at the position or before it. -/
def BreakAt (gs : List (Glyph α τ)) (p : ℕ) : Prop := ∃ g, gs[p]? = some g ∧ g.breaks = true

/-- Text stands behind every break, before the next one, and there is text before each glyph that a
break leads. -/
structure BreaksApart (gs : List (Glyph α τ)) : Prop where
  unbroken : AnnotationsUnbroken gs
  behind : ∀ p, BreakAt gs p → StandsIn gs p gs.length
  between : ∀ p q, BreakAt gs p → BreakAt gs q → p < q → StandsIn gs p q
  before : ∀ (p : ℕ) (g : Glyph α τ), gs[p]? = some g → g.split = .before →
    ∃ (i : ℕ) (h : Glyph α τ), gs[i]? = some h ∧ i < p ∧ h.annotates = false

/-- Text that stands behind a replaced glyph stands behind it strictly. -/
theorem StandsIn.of_replace (h : StandsIn gs p q) (hg : gs[p]? = some g)
    (hsplit : g.split = .replace) : StandsIn gs (p + 1) q := by
  obtain ⟨i, k, hk, hp, hq, hstands⟩ := h
  have hne : i ≠ p := by
    rintro rfl
    rw [hg] at hk
    exact hstands.2 (Option.some.inj hk ▸ hsplit)
  exact ⟨i, k, hk, by omega, hq, hstands⟩

/-- No text starts with a break that leads its first glyph. -/
theorem BreaksApart.split_first (h : BreaksApart gs) (hg : gs[i]? = some g)
    (hfirst : ∀ j < i, AnnotationAt gs j) : g.split ≠ .before := by
  intro hb
  obtain ⟨j, k, hk, hj, htext⟩ := h.before i g hg hb
  obtain ⟨k', hk', hann⟩ := hfirst j hj
  obtain rfl := Option.mem_unique hk hk'
  rw [htext] at hann
  cases hann

/-- A line ends between two glyphs where the first is replaced or a break leads the second. -/
theorem joins_add_leads {g k : Glyph α τ} (h : ¬ (g.split = .replace ∧ k.split = .before)) :
    (if !joins g k then 1 else 0) + (if g.split = .before then 1 else 0) =
      (if g.breaks then 1 else 0) + (if k.split = .before then 1 else 0) := by
  unfold joins breaks
  generalize g.split = a at h ⊢
  generalize k.split = b at h ⊢
  revert h
  cases a <;> cases b <;> decide

theorem countP_joins {g : Glyph α τ}
    (hchain : (g :: gs).IsChain fun a b => ¬ (a.split = .replace ∧ b.split = .before))
    (hlast : ∀ k, (g :: gs).getLast? = some k → k.split ≠ .replace) :
    ((g :: gs).zip gs).countP (fun p => !joins p.1 p.2) + (if g.split = .before then 1 else 0) =
      (g :: gs).countP breaks := by
  induction gs generalizing g with
  | nil =>
    have hg := hlast g rfl
    simp [breaks, hg]
  | cons k gs ih =>
    obtain ⟨hgk, hrest⟩ := List.isChain_cons_cons.mp hchain
    have hcount := ih hrest fun l hl => hlast l (by rwa [List.getLast?_cons_cons])
    have hstep := joins_add_leads hgk
    rw [List.zip_cons_cons, List.countP_cons, List.countP_cons, ← hcount]
    dsimp only
    omega

/-- There is one line more than there are breaks. -/
theorem BreaksApart.length_lineSpans (h : BreaksApart gs) (hne : gs ≠ []) :
    (lineSpans gs).length = gs.countP breaks + 1 := by
  obtain ⟨g, rest, rfl⟩ := List.exists_cons_of_ne_nil hne
  have hchain : (g :: rest).IsChain fun a b => ¬ (a.split = .replace ∧ b.split = .before) := by
    rw [List.isChain_iff_getElem]
    rintro i hi ⟨hreplace, hbefore⟩
    have hi' := List.getElem?_eq_getElem (Nat.lt_of_succ_lt hi)
    have hn' := List.getElem?_eq_getElem hi
    have hstands := h.between i (i + 1) ⟨_, hi', breaks_iff.mpr (.inr hreplace)⟩
      ⟨_, hn', breaks_iff.mpr (.inl hbefore)⟩ (Nat.lt_succ_self i)
    exact absurd (hstands.of_replace hi' hreplace).lt (lt_irrefl _)
  have hlast : ∀ k, (g :: rest).getLast? = some k → k.split ≠ .replace := by
    intro k hk hreplace
    rw [List.getLast?_eq_getElem?] at hk
    have hstands := h.behind _ ⟨k, hk, breaks_iff.mpr (.inr hreplace)⟩
    have hlt := (hstands.of_replace hk hreplace).lt
    simp at hlt
  have hfirst : g.split ≠ .before := h.split_first (i := 0) rfl fun j hj => by omega
  rw [lineSpans, Span.length_ofLengths, List.length_map, lines, length_splitBy,
    ← countP_joins hchain hlast, if_neg hfirst, Nat.add_zero]

/-- A line starts behind a break: at the glyph it leads, or right behind the glyph it replaces. -/
theorem exists_break_of_isCut (hcut : IsCut gs b) (hpos : 0 < b) (hlt : b < gs.length) :
    ∃ p g, gs[p]? = some g ∧ (p = b ∧ g.split = .before ∨ p + 1 = b ∧ g.split = .replace) := by
  obtain ⟨c, rfl⟩ : ∃ c, b = c + 1 := ⟨b - 1, by omega⟩
  have hc := List.getElem?_eq_getElem (Nat.lt_of_succ_lt hlt)
  have hn := List.getElem?_eq_getElem hlt
  rcases (isCut_succ_iff hc hn).mp hcut with hr | hb
  · exact ⟨c, _, hc, .inr ⟨rfl, hr⟩⟩
  · exact ⟨c + 1, _, hn, .inl ⟨rfl, hb⟩⟩

/-- Text stands on every line but the first. -/
theorem BreaksApart.standsIn_line (h : BreaksApart gs) {line : Span} (hline : line ∈ lineSpans gs)
    (hpos : 0 < line.start) : StandsIn gs line.start line.stop := by
  obtain ⟨hlt, hle, hstart, hstop, _⟩ := mem_lineSpans.mp hline
  obtain ⟨p, g, hg, hp⟩ := exists_break_of_isCut hstart hpos (by omega)
  have hbreak : BreakAt gs p := ⟨g, hg, by rcases hp with ⟨_, hp⟩ | ⟨_, hp⟩ <;> simp [breaks, hp]⟩
  have behind : ∀ {n}, StandsIn gs p n → StandsIn gs line.start n := by
    intro n hn
    rcases hp with ⟨rfl, _⟩ | ⟨hp, hr⟩
    · exact hn
    · exact hp ▸ hn.of_replace hg hr
  rcases hle.eq_or_lt with heq | hend
  · exact heq ▸ behind (h.behind p hbreak)
  · obtain ⟨q, k, hk, hq⟩ := exists_break_of_isCut hstop (by omega) hend
    have hbreak' : BreakAt gs q :=
      ⟨k, hk, by rcases hq with ⟨_, hq⟩ | ⟨_, hq⟩ <;> simp [breaks, hq]⟩
    have hpq : p < q := by
      by_contra hge
      -- only at one and the same glyph could the break behind the line come no later
      obtain rfl : p = q := by omega
      obtain rfl := Option.mem_unique hg hk
      rcases hp with ⟨hp', hp⟩ | ⟨hp', hp⟩
      · rcases hq with ⟨hq, _⟩ | ⟨_, hq⟩
        · omega
        · rw [hp] at hq
          cases hq
      · omega
    obtain ⟨i, l, hl, hi, hiq, hstands⟩ := behind (h.between p q hbreak hbreak' hpq)
    exact ⟨i, l, hl, hi, by omega, hstands⟩

/-- The first line holds text, if there is any. -/
theorem BreaksApart.text_of_first (h : BreaksApart gs) (htext : ∃ g ∈ gs, g.annotates = false)
    {line : Span} (hline : line ∈ lineSpans gs) (hstart : line.start = 0) :
    ∃ i g, gs[i]? = some g ∧ i < line.stop ∧ g.annotates = false := by
  obtain ⟨hlt, hle, _, hstop, _⟩ := mem_lineSpans.mp hline
  rcases hle.eq_or_lt with heq | hend
  · obtain ⟨g, hmem, hg⟩ := htext
    obtain ⟨i, hi⟩ := List.mem_iff_getElem?.mp hmem
    have hlt := (List.getElem?_eq_some_iff.mp hi).1
    exact ⟨i, g, hi, by omega, hg⟩
  · obtain ⟨q, k, hk, hq⟩ := exists_break_of_isCut hstop (by omega) hend
    rcases hq with ⟨rfl, hb⟩ | ⟨hq, hr⟩
    · exact h.before _ k hk hb
    · have hann : k.annotates = false := by
        by_contra hann
        exact (h.unbroken k (List.mem_of_getElem? hk) (by simpa using hann)).2 hr
      exact ⟨q, k, hk, by omega, hann⟩

end Glyph

end Apart

section Breaker

namespace Glyph

variable {α τ : Type} [Scalar α] {gs : List (Glyph α τ)}

/-- The breaks that the breaker leaves stand apart. -/
theorem breaksApart_breakGreedy (first rest : α) (hann : AnnotationsUnbroken gs) :
    BreaksApart (breakGreedy first rest gs) := by
  obtain ⟨s, hs, h⟩ := Fill.spaced_takenBreaks first rest gs
  have taken : ∀ {p}, BreakAt (breakGreedy first rest gs) p → p ∈ s.taken := by
    rintro p ⟨k, hk, hbreaks⟩
    exact hs ▸ (taken_of_breaks hann hk hbreaks).2
  constructor
  · intro k hk htext
    obtain ⟨i, hi⟩ := List.mem_iff_getElem?.mp hk
    by_contra hno
    have hbreaks : k.breaks = true := breaks_iff.mpr (by tauto)
    obtain ⟨hg, _⟩ := taken_of_breaks hann hi hbreaks
    exact hno (hann k (List.mem_of_getElem? hg) htext)
  · intro p hp
    rw [length_breakGreedy]
    exact (h.stands p (taken hp)).breakGreedy
  · intro p q hp hq hlt
    have hsym := h.apart.imp (S := fun q p => StandsIn gs p q ∨ StandsIn gs q p) .inl
    have : Std.Symm fun q p => StandsIn gs p q ∨ StandsIn gs q p := ⟨fun _ _ => Or.symm⟩
    rcases hsym.forall (taken hp) (taken hq) hlt.ne with hstands | hstands
    · exact absurd hstands.lt (by omega)
    · exact hstands.breakGreedy
  · intro p k hk hb
    obtain ⟨hg, hp⟩ := taken_of_breaks hann hk (breaks_iff.mpr (.inl hb))
    obtain ⟨g, hg', _, hbefore⟩ := h.breakable p (hs ▸ hp)
    obtain rfl := Option.mem_unique hg hg'
    obtain ⟨i, l, hl, hi, hsettles⟩ := hbefore hb
    obtain ⟨m, hm, hml⟩ := exists_breakGreedy first rest hl
    rcases hml with rfl | ⟨_, rfl⟩
    · exact ⟨i, m, hm, hi, hsettles.1⟩
    · exact ⟨i, _, hm, hi, hsettles.1⟩

/-- A text with some of its breaks removed, so that no line is blank: every glyph stays as it is but
for breaks in the text, the first text glyph is led by no break, and there is one line more than
there are breaks. Text stands on every line but the first, and on the first there is other text than
a replaced glyph at its end, unless all before that glyph are annotations. -/
structure Prunes (gs broken : List (Glyph α τ)) : Prop where
  glyphs : List.Forall₂ (fun g k => k = g ∨ g.isOpportunity = true ∧ k = { g with split := .none })
    gs broken
  unled : ∀ (i : ℕ) (g : Glyph α τ), broken[i]? = some g → g.annotates = false →
    (∀ j < i, AnnotationAt broken j) → g.split ≠ .before
  count : gs ≠ [] → (lineSpans broken).length = broken.countP breaks + 1
  filled : ∀ line ∈ lineSpans broken, 0 < line.start → ∃ (i : ℕ) (g : Glyph α τ),
    broken[i]? = some g ∧ line.start ≤ i ∧ i < line.stop ∧ g.annotates = false ∧
      g.split ≠ .replace ∧ g.split ≠ .hang
  first : (∃ g ∈ gs, g.annotates = false) → ∀ line ∈ lineSpans broken, line.start = 0 →
    ∃ (i : ℕ) (g : Glyph α τ), broken[i]? = some g ∧ i < line.stop ∧ g.annotates = false ∧
      (i + 1 = line.stop → g.split = .replace → ∀ j < i, AnnotationAt broken j)

/-- The breaker removes breaks only, and it leaves no line blank. -/
theorem breakGreedy_prunes (first rest : α) (hann : AnnotationsUnbroken gs) :
    Prunes gs (breakGreedy first rest gs) := by
  have hapart := breaksApart_breakGreedy first rest hann
  have hglyphs : List.Forall₂
      (fun g k => k = g ∨ g.isOpportunity = true ∧ k = { g with split := .none }) gs
      (breakGreedy first rest gs) := by
    apply forall₂_map_zipIdx
    intro g n
    dsimp only
    split_ifs with hdrop
    · rw [Bool.and_eq_true] at hdrop
      exact .inr ⟨hdrop.1, rfl⟩
    · exact .inl rfl
  constructor
  · exact hglyphs
  · intro i g hg _ hfirst
    exact hapart.split_first hg hfirst
  · intro hne
    apply hapart.length_lineSpans
    rwa [← List.length_pos_iff, length_breakGreedy, List.length_pos_iff]
  · intro line hline hpos
    obtain ⟨i, g, hg, hi, hi', hstands⟩ := hapart.standsIn_line hline hpos
    exact ⟨i, g, hg, hi, hi', hstands.1.1, hstands.2, hstands.1.2⟩
  · rintro ⟨g, hmem, hg⟩ line hline hstart
    obtain ⟨n, hn⟩ := List.mem_iff_getElem?.mp hmem
    obtain ⟨k, hk, hkg⟩ := exists_breakGreedy first rest hn
    have htext : ∃ k ∈ breakGreedy first rest gs, k.annotates = false := by
      rcases hkg with rfl | ⟨_, rfl⟩
      · exact ⟨k, List.mem_of_getElem? hk, hg⟩
      · exact ⟨_, List.mem_of_getElem? hk, hg⟩
    obtain ⟨i, k, hk, hi, hkann⟩ := hapart.text_of_first htext hline hstart
    by_cases hbefore : ∀ j < i, AnnotationAt (breakGreedy first rest gs) j
    · exact ⟨i, k, hk, hi, hkann, fun _ _ => hbefore⟩
    · -- other text comes before the glyph, and no line ends there
      push Not at hbefore
      obtain ⟨j, hj, hnot⟩ := hbefore
      have hlen := (List.getElem?_eq_some_iff.mp hk).1
      have hjk := List.getElem?_eq_getElem (hj.trans hlen)
      have hjann : (breakGreedy first rest gs)[j].annotates = false := by
        by_contra hjann
        exact hnot ⟨_, hjk, by simpa using hjann⟩
      exact ⟨j, _, hjk, hj.trans hi, hjann, fun hend => by omega⟩

/-- A reading, two spaces, a letter, a comma that hangs, and a break before the next letter. -/
def spacedLetters : List (Glyph ℚ ℚ) :=
  [{ (ofCode 120 1 : Glyph ℚ ℚ) with ruby := .above },
    { (ofCode 32 1 : Glyph ℚ ℚ) with split := .replace },
    { (ofCode 32 1 : Glyph ℚ ℚ) with split := .replace }, ofCode 97 1,
    { (ofCode 44 1 : Glyph ℚ ℚ) with split := .hang },
    { (ofCode 98 1 : Glyph ℚ ℚ) with split := .before }]

theorem breakGreedy_prunes_spacedLetters :
    AnnotationsUnbroken spacedLetters ∧
      lineSpans (breakGreedy 1 1 spacedLetters) = [⟨0, 3⟩, ⟨3, 5⟩, ⟨5, 6⟩] ∧
      Prunes spacedLetters (breakGreedy 1 1 spacedLetters) := by
  have hann : AnnotationsUnbroken spacedLetters := by
    simp [AnnotationsUnbroken, spacedLetters, ofCode, annotates, RubyRole.annotates]
  have hlines : lineSpans (breakGreedy 1 1 spacedLetters) = [⟨0, 3⟩, ⟨3, 5⟩, ⟨5, 6⟩] := by
    decide +kernel
  exact ⟨hann, hlines, breakGreedy_prunes 1 1 hann⟩

end Glyph

end Breaker

end Typeset
