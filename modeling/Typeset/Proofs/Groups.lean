import Typeset.Proofs.Grammar

/-!
# Complete groups

A complete group holds no bracket but its own two, so the complete groups of a text do not overlap,
and the text is literal text and groups in turn, in one way only. The scan knows at every character
whether the last opening bracket may still begin a group, and hands out exactly these groups.
-/

namespace Typeset.Markup.Group

/-- Text without brackets. -/
def BracketFree (cs : List Char) : Prop := openBracket ∉ cs ∧ closeBracket ∉ cs

/-- A complete group. Its first bar parts the base from the reading, which may hold others. -/
@[ext] structure Complete where
  base : List Char
  bar : Char
  reading : List Char
  base_free : BracketFree base
  base_barless : ∀ c ∈ base, isBar c = false
  barred : isBar bar = true
  reading_free : BracketFree reading

namespace Complete

/-- What stands between the brackets. -/
def inner (g : Complete) : List Char := g.base ++ g.bar :: g.reading

def spelling (g : Complete) : List Char := openBracket :: (g.inner ++ [closeBracket])

/-- The base and the reading, each in tags of its own. -/
def tokens (g : Complete) : List Token :=
  ⟨.tag, "rb"⟩ :: Token.consText g.base
    (⟨.tag, "/rb"⟩ :: ⟨.tag, "rt"⟩ :: Token.consText g.reading [⟨.tag, "/rt"⟩])

end Complete

/-- The group stands at a position of the text. -/
def OccursAt (g : Complete) (cs : List Char) (i : ℕ) : Prop :=
  ∃ l r, cs = l ++ (g.spelling ++ r) ∧ l.length = i

/-- Complete groups, each with the literal text before it. -/
abbrev Parts := List (List Char × Complete)

namespace Parts

def spelling (ps : Parts) : List Char := ps.flatMap fun p => p.1 ++ p.2.spelling

def tokens (ps : Parts) : List Token := ps.flatMap fun p => Token.consText p.1 p.2.tokens

/-- The group is one of the parts, and it stands at a position of their spelling. -/
def HoldsAt : Parts → Complete → ℕ → Prop
  | [], _, _ => False
  | (l, h) :: ps, g, i =>
    g = h ∧ i = l.length ∨ ∃ j, HoldsAt ps g j ∧ i = l.length + (h.spelling.length + j)

end Parts

/-- A text as literal text and complete groups in turn. -/
@[ext] structure Division where
  parts : Parts
  /-- The literal text behind the last group. -/
  rest : List Char

namespace Division

def spelling (d : Division) : List Char := d.parts.spelling ++ d.rest

/-- The tokens of the parts, and a token for the text behind them unless it is empty. -/
def tokens (d : Division) : List Token := d.parts.tokens ++ Token.consText d.rest []

/-- The division of a text whose groups are the complete groups of the text. -/
structure Divides (d : Division) (cs : List Char) : Prop where
  spelling : d.spelling = cs
  groups : ∀ g i, OccursAt g cs i ↔ d.parts.HoldsAt g i

end Division

section Parts

variable {g h : Complete} {ps : Parts} {i j : ℕ} {l : List Char}

theorem Complete.length_spelling_pos (g : Complete) : 0 < g.spelling.length := Nat.succ_pos _

theorem Parts.spelling_cons (l : List Char) (g : Complete) (ps : Parts) :
    Parts.spelling ((l, g) :: ps) = l ++ (g.spelling ++ ps.spelling) := by
  simp [Parts.spelling]

theorem Parts.holdsAt_concat_iff : Parts.HoldsAt (ps ++ [(l, h)]) g i ↔
    ps.HoldsAt g i ∨ g = h ∧ i = (ps.spelling ++ l).length := by
  induction ps generalizing i with
  | nil => simp [HoldsAt, Parts.spelling]
  | cons p ps ih =>
    obtain ⟨m, k⟩ := p
    simp only [List.cons_append, HoldsAt, ih, or_and_right, exists_or, or_assoc, and_assoc,
      exists_and_left, exists_eq_left, Parts.spelling_cons, List.length_append, Nat.add_assoc]

/-- The groups behind the first one. -/
theorem Parts.holdsAt_behind_iff (l : List Char) (h : Complete) :
    Parts.HoldsAt ((l, h) :: ps) g (l.length + (h.spelling.length + i)) ↔ ps.HoldsAt g i := by
  constructor
  · rintro (⟨_, hi⟩ | ⟨j, hj, hi⟩)
    · have := h.length_spelling_pos
      omega
    · obtain rfl : i = j := by omega
      exact hj
  · exact fun hg => .inr ⟨i, hg, rfl⟩

/-- Two groups of a division are the same one or stand apart. -/
theorem Parts.HoldsAt.apart (hg : ps.HoldsAt g i) (hh : ps.HoldsAt h j) :
    g = h ∧ i = j ∨ i + g.spelling.length ≤ j ∨ j + h.spelling.length ≤ i := by
  induction ps generalizing i j with
  | nil => cases hg
  | cons p ps ih =>
    obtain ⟨m, k⟩ := p
    rcases hg with ⟨rfl, rfl⟩ | ⟨i, hg, rfl⟩ <;> rcases hh with ⟨rfl, rfl⟩ | ⟨j, hh, rfl⟩
    · exact .inl ⟨rfl, rfl⟩
    · omega
    · omega
    · rcases ih hg hh with ⟨rfl, rfl⟩ | hbehind | hbehind
      · exact .inl ⟨rfl, rfl⟩
      · omega
      · omega

end Parts

/-- The groups of a text and where they stand leave one division of it. -/
theorem Division.eq_of_groups {d e : Division} (hspelling : d.spelling = e.spelling)
    (hgroups : ∀ g i, d.parts.HoldsAt g i ↔ e.parts.HoldsAt g i) : d = e := by
  obtain ⟨ps, rest⟩ := d
  obtain ⟨qs, rest'⟩ := e
  unfold Division.spelling at hspelling
  dsimp only at hspelling hgroups
  induction ps generalizing qs with
  | nil =>
    cases qs with
    | nil => simpa [Parts.spelling] using hspelling
    | cons q qs => exact ((hgroups q.2 q.1.length).mpr (.inl ⟨rfl, rfl⟩)).elim
  | cons p ps ih =>
    cases qs with
    | nil => exact ((hgroups p.2 p.1.length).mp (.inl ⟨rfl, rfl⟩)).elim
    | cons q qs =>
      obtain ⟨l, g⟩ := p
      obtain ⟨m, h⟩ := q
      -- the first group of each division is one of the other, so neither stands before the other
      have hfirst : g = h ∧ l.length = m.length := by
        have hposg := g.length_spelling_pos
        have hposh := h.length_spelling_pos
        rcases (hgroups g l.length).mp (.inl ⟨rfl, rfl⟩) with hsame | ⟨i, _, hi⟩
        · exact hsame
        · rcases (hgroups h m.length).mpr (.inl ⟨rfl, rfl⟩) with ⟨rfl, hsame⟩ | ⟨j, _, hj⟩
          · exact ⟨rfl, hsame.symm⟩
          · omega
      obtain ⟨rfl, hlength⟩ := hfirst
      simp only [Parts.spelling_cons, List.append_assoc] at hspelling
      obtain ⟨rfl, htail⟩ := List.append_inj hspelling hlength
      have htail := List.append_cancel_left htail
      have hbehind : ∀ k i, Parts.HoldsAt ps k i ↔ Parts.HoldsAt qs k i := by
        intro k i
        rw [← Parts.holdsAt_behind_iff l g, hgroups, Parts.holdsAt_behind_iff]
      obtain ⟨rfl, rfl⟩ := Division.mk.inj (ih qs htail hbehind)
      rfl

section Progress

variable {p : Progress} {g h : Complete} {cs w base : List Char} {c bar : Char}

/-- Text is parted at its first bar. -/
theorem span_bar (reading : List Char) (hbase : ∀ c ∈ base, isBar c = false)
    (hbar : isBar bar = true) :
    ((base ++ bar :: reading).takeWhile fun c => !isBar c) = base ∧
      ((base ++ bar :: reading).dropWhile fun c => !isBar c) = bar :: reading := by
  have hpass : ∀ c ∈ base, (!isBar c) = true := by simpa using hbase
  rw [List.takeWhile_append_of_pos hpass, List.dropWhile_append_of_pos hpass]
  simp [hbar]

theorem Complete.eq_of_inner (hinner : g.inner = h.inner) : g = h := by
  obtain ⟨htake, hdrop⟩ := span_bar g.reading g.base_barless g.barred
  obtain ⟨htake', hdrop'⟩ := span_bar h.reading h.base_barless h.barred
  unfold Complete.inner at hinner
  rw [hinner, htake'] at htake
  rw [hinner, hdrop'] at hdrop
  obtain ⟨hbar, hreading⟩ := List.cons.inj hdrop
  exact Complete.ext htake.symm hbar.symm hreading.symm

theorem Complete.inner_free (g : Complete) : BracketFree g.inner := by
  have hopen : g.bar ≠ openBracket := ne_of_apply_ne isBar (by rw [g.barred]; decide)
  have hclose : g.bar ≠ closeBracket := ne_of_apply_ne isBar (by rw [g.barred]; decide)
  have hbase := g.base_free
  have hreading := g.reading_free
  simp only [BracketFree, Complete.inner, List.mem_append, List.mem_cons] at hbase hreading ⊢
  tauto

/-- What is kept of a group may still become one. -/
def Progress.IsSound : Progress → Prop
  | .outside => True
  | .base b => BracketFree b ∧ ∀ c ∈ b, isBar c = false
  | .reading b bar r =>
    (BracketFree b ∧ ∀ c ∈ b, isBar c = false) ∧ isBar bar = true ∧ BracketFree r

/-- The progress holds what was read since the last opening bracket, if that is free of brackets. -/
def Progress.Tracks (p : Progress) (cs : List Char) : Prop :=
  ∀ w, BracketFree w → (openBracket :: w <:+ cs ↔ p.spelling.reverse = openBracket :: w)

/-- The progress after a character that is no bracket. -/
def Progress.extend : Progress → Char → Progress
  | .outside, _ => .outside
  | .base b, c => if isBar c then .reading b c [] else .base (c :: b)
  | .reading b bar r, c => .reading b bar (c :: r)

/-- The progress after another character. -/
def Progress.next (p : Progress) (c : Char) : Progress :=
  if c = openBracket then .base [] else if c = closeBracket then .outside else p.extend c

theorem progress_step (s : Scan) (c : Char) : (s.step c).progress = s.progress.next c := by
  obtain ⟨progress, literal, ts⟩ := s
  cases progress with
  | outside =>
    simp only [Scan.step, Progress.next, Progress.extend]
    split_ifs <;> rfl
  | base b =>
    simp only [Scan.step, Progress.next, Progress.extend]
    split_ifs <;> rfl
  | reading b bar r =>
    simp only [Scan.step, Progress.next, Progress.extend]
    split_ifs <;> rfl

theorem Progress.spelling_extend (hp : p ≠ .outside) (c : Char) :
    (p.extend c).spelling = c :: p.spelling := by
  cases p with
  | outside => exact absurd rfl hp
  | base b =>
    rw [extend]
    split_ifs <;> rfl
  | reading b bar r => rfl

theorem BracketFree.cons (hw : BracketFree w) (hopen : c ≠ openBracket)
    (hclose : c ≠ closeBracket) : BracketFree (c :: w) := by
  simpa [BracketFree, hopen.symm, hclose.symm] using hw

theorem Progress.IsSound.next (hp : p.IsSound) (c : Char) : (p.next c).IsSound := by
  unfold Progress.next
  split_ifs with hopen hclose
  · simp [IsSound, BracketFree]
  · trivial
  · cases p with
    | outside => trivial
    | base b =>
      rw [extend]
      split_ifs with hbar
      · exact ⟨hp, hbar, by simp [BracketFree]⟩
      · exact ⟨hp.1.cons hopen hclose, by simpa [hbar] using hp.2⟩
    | reading b bar r => exact ⟨hp.1, hp.2.1, hp.2.2.cons hopen hclose⟩

/-- How a text with one more character ends from an opening bracket on. -/
theorem opened_concat_iff : openBracket :: w <:+ cs ++ [c] ↔
    c = openBracket ∧ w = [] ∨ ∃ v, w = v ++ [c] ∧ openBracket :: v <:+ cs := by
  rw [List.suffix_concat_iff]
  constructor
  · rintro (hnil | ⟨t, hw, ht⟩)
    · cases hnil
    · cases t with
      | nil =>
        obtain ⟨hc, hw⟩ := List.cons.inj hw
        exact .inl ⟨hc.symm, hw⟩
      | cons a v =>
        obtain ⟨ha, hw⟩ := List.cons.inj hw
        exact .inr ⟨v, hw, ha ▸ ht⟩
  · rintro (⟨rfl, rfl⟩ | ⟨v, rfl, hv⟩)
    · exact .inr ⟨[], rfl, List.nil_suffix⟩
    · exact .inr ⟨openBracket :: v, rfl, hv⟩

theorem Progress.Tracks.next (hp : p.Tracks cs) (c : Char) : (p.next c).Tracks (cs ++ [c]) := by
  intro w hw
  rw [opened_concat_iff]
  unfold Progress.next
  split_ifs with hopen hclose
  · have hlast : ¬ ∃ v, w = v ++ [c] ∧ openBracket :: v <:+ cs := by
      rintro ⟨v, rfl, _⟩
      exact hw.1 (by simp [hopen])
    rw [or_iff_left hlast]
    simp [hopen, spelling, eq_comm]
  · have hlast : ¬ ∃ v, w = v ++ [c] ∧ openBracket :: v <:+ cs := by
      rintro ⟨v, rfl, _⟩
      exact hw.2 (by simp [hclose])
    rw [or_iff_left hlast]
    simp [hopen, spelling]
  · have hbefore : ∀ v, w = v ++ [c] →
        (openBracket :: v <:+ cs ↔ p.spelling.reverse = openBracket :: v) := by
      rintro v rfl
      exact hp v ⟨fun h => hw.1 (List.mem_append_left _ h),
        fun h => hw.2 (List.mem_append_left _ h)⟩
    rw [or_iff_right fun h => hopen h.1]
    by_cases hout : p = .outside
    · subst hout
      refine ⟨?_, fun h => by cases h⟩
      rintro ⟨v, hv, hsuffix⟩
      exact absurd ((hbefore v hv).mp hsuffix) (by simp [spelling])
    · rw [spelling_extend hout, List.reverse_cons]
      constructor
      · rintro ⟨v, hv, hsuffix⟩
        rw [(hbefore v hv).mp hsuffix, hv, List.cons_append]
      · intro hspelling
        cases hkept : p.spelling.reverse with
        | nil =>
          rw [hkept] at hspelling
          exact absurd (List.cons.inj hspelling).1 hopen
        | cons a v =>
          rw [hkept] at hspelling
          obtain ⟨rfl, rfl⟩ := List.cons.inj hspelling
          exact ⟨v, rfl, (hbefore v rfl).mpr hkept⟩

/-- The group that a sound progress with a bar becomes once it is closed. -/
theorem Progress.IsSound.exists_complete {b r : List Char}
    (hp : (Progress.reading b bar r).IsSound) :
    ∃ g : Complete, g.base = b.reverse ∧ g.bar = bar ∧ g.reading = r.reverse := by
  obtain ⟨⟨hfree, hbarless⟩, hbar, hreading⟩ := hp
  exact ⟨⟨b.reverse, bar, r.reverse, by simpa [BracketFree] using hfree, by simpa using hbarless,
    hbar, by simpa [BracketFree] using hreading⟩, rfl, rfl, rfl⟩

/-- A sound progress that lacks the closing bracket of a group only. -/
theorem Progress.IsSound.eq_reading (hp : p.IsSound)
    (hspelling : p.spelling.reverse = openBracket :: g.inner) :
    p = .reading g.base.reverse g.bar g.reading.reverse := by
  cases p with
  | outside => cases hspelling
  | base b =>
    have hinner : b.reverse = g.inner := by simpa [spelling] using hspelling
    have hmem : g.bar ∈ b := List.mem_reverse.mp (hinner ▸ by simp [Complete.inner])
    have hbar := hp.2 g.bar hmem
    rw [g.barred] at hbar
    cases hbar
  | reading b bar r =>
    obtain ⟨h, hbase, rfl, hreading⟩ := hp.exists_complete
    have hinner : h.inner = g.inner := by
      simpa [spelling, Complete.inner, hbase, hreading] using hspelling
    obtain rfl := Complete.eq_of_inner hinner
    rw [hbase, hreading, List.reverse_reverse, List.reverse_reverse]

end Progress

section Scanning

variable {s : Scan} {ps : Parts} {g : Complete} {cs : List Char} {c : Char} {i : ℕ}

theorem not_occursAt_nil : ¬ OccursAt g [] i := by
  rintro ⟨l, r, hcs, _⟩
  simp [Complete.spelling] at hcs

/-- A group that another character completes. -/
theorem occursAt_concat_iff : OccursAt g (cs ++ [c]) i ↔ OccursAt g cs i ∨
    c = closeBracket ∧ openBracket :: g.inner <:+ cs ∧ i + (g.inner.length + 1) = cs.length := by
  constructor
  · rintro ⟨l, r, hcs, rfl⟩
    rcases List.eq_nil_or_concat r with rfl | ⟨r, a, rfl⟩
    · have hlast : cs ++ [c] = (l ++ openBracket :: g.inner) ++ [closeBracket] := by
        simpa [Complete.spelling] using hcs
      obtain ⟨rfl, hc⟩ := List.append_inj' hlast rfl
      exact .inr ⟨(List.cons.inj hc).1, List.suffix_append .., by simp⟩
    · have hlast : cs ++ [c] = (l ++ (g.spelling ++ r)) ++ [a] := by
        simpa using hcs
      exact .inl ⟨l, r, (List.append_inj' hlast rfl).1, rfl⟩
  · rintro (⟨l, r, rfl, rfl⟩ | ⟨rfl, ⟨l, rfl⟩, hi⟩)
    · exact ⟨l, r ++ [c], by simp, rfl⟩
    · refine ⟨l, [], by simp [Complete.spelling], ?_⟩
      simpa using hi.symm

theorem consText_eq (cs : List Char) (ts : List Token) :
    Token.consText cs ts = Token.consText cs [] ++ ts := by
  unfold Token.consText
  split_ifs <;> rfl

theorem reverse_consText (cs : List Char) (ts : List Token) :
    (Token.consText cs ts).reverse = ts.reverse ++ Token.consText cs [] := by
  unfold Token.consText
  split_ifs <;> simp

/-- Where no group is completed, the character is kept. -/
theorem step_pending (h : c = closeBracket → ∀ b bar r, s.progress ≠ .reading b bar r) :
    (s.step c).tokens = s.tokens ∧ (s.step c).progress.spelling ++ (s.step c).literal =
      c :: (s.progress.spelling ++ s.literal) := by
  obtain ⟨progress, literal, ts⟩ := s
  cases progress with
  | outside =>
    simp only [Scan.step]
    split_ifs with hopen
    · simp [Scan.abandon, Progress.spelling, hopen]
    · simp [Progress.spelling]
  | base b =>
    simp only [Scan.step]
    split_ifs with hopen hclose hbar
    · simp [Scan.abandon, Progress.spelling, hopen]
    · simp [Progress.spelling]
    · simp [Progress.spelling]
    · simp [Progress.spelling]
  | reading b bar r =>
    simp only [Scan.step]
    split_ifs with hopen hclose
    · simp [Scan.abandon, Progress.spelling, hopen]
    · exact absurd rfl (h hclose b bar r)
    · simp [Progress.spelling]

/-- A closing bracket behind a base, a bar and a reading hands out the group. -/
theorem step_complete (h : s.progress = .reading g.base.reverse g.bar g.reading.reverse) :
    (s.step closeBracket).literal = [] ∧ (s.step closeBracket).progress = .outside ∧
      (s.step closeBracket).tokens.reverse =
        s.tokens.reverse ++ Token.consText s.literal.reverse g.tokens := by
  have hstep : s.step closeBracket = s.complete g.base.reverse g.reading.reverse := by
    simp [Scan.step, h, show closeBracket ≠ openBracket by decide]
  have hgroup : g.tokens = .ofTag ['r', 'b'] :: (Token.consText g.base [] ++
      .ofTag ['/', 'r', 'b'] :: .ofTag ['r', 't'] ::
        (Token.consText g.reading [] ++ [.ofTag ['/', 'r', 't']])) := by
    rw [Complete.tokens, consText_eq g.base, consText_eq g.reading]
    rfl
  rw [hstep]
  refine ⟨rfl, rfl, ?_⟩
  rw [consText_eq _ g.tokens, hgroup]
  simp [Scan.complete, Scan.flush, reverse_consText]

theorem reverse_spelling_reading
    (h : s.progress = .reading g.base.reverse g.bar g.reading.reverse) :
    s.progress.spelling.reverse = openBracket :: g.inner := by
  simp [h, Progress.spelling, Complete.inner]

/-- The scan of a text has handed out the groups of the text, and holds what is behind them. -/
structure Scanned (cs : List Char) (s : Scan) (ps : Parts) : Prop where
  spelling : cs = ps.spelling ++ (s.literal.reverse ++ s.progress.spelling.reverse)
  tokens : s.tokens.reverse = ps.tokens
  occurs : ∀ g i, OccursAt g cs i ↔ ps.HoldsAt g i
  sound : s.progress.IsSound
  tracks : s.progress.Tracks cs

theorem scanned_start : Scanned [] .start [] where
  spelling := rfl
  tokens := rfl
  occurs g i := ⟨fun h => not_occursAt_nil h, fun h => h.elim⟩
  sound := trivial
  tracks w _ := by simp [Scan.start, Progress.spelling]

/-- A group that the next character completes is the one under way. -/
theorem Scanned.completes_iff (h : Scanned cs s ps) :
    openBracket :: g.inner <:+ cs ↔
      s.progress = .reading g.base.reverse g.bar g.reading.reverse := by
  rw [h.tracks g.inner g.inner_free]
  exact ⟨h.sound.eq_reading, reverse_spelling_reading⟩

theorem Scanned.pending (h : Scanned cs s ps)
    (hpending : c = closeBracket → ∀ b bar r, s.progress ≠ .reading b bar r) :
    Scanned (cs ++ [c]) (s.step c) ps := by
  obtain ⟨htokens, hkept⟩ := step_pending hpending
  refine ⟨?_, htokens ▸ h.tokens, fun g i => ?_, ?_, ?_⟩
  · have hreverse := congrArg List.reverse hkept
    simp only [List.reverse_append, List.reverse_cons] at hreverse
    rw [hreverse, ← List.append_assoc, ← h.spelling]
  · rw [occursAt_concat_iff, h.occurs, h.completes_iff]
    exact or_iff_left fun hc => hpending hc.1 _ _ _ hc.2.1
  · exact progress_step s c ▸ h.sound.next c
  · exact progress_step s c ▸ h.tracks.next c

theorem Scanned.complete (h : Scanned cs s ps)
    (hg : s.progress = .reading g.base.reverse g.bar g.reading.reverse) :
    Scanned (cs ++ [closeBracket]) (s.step closeBracket) (ps ++ [(s.literal.reverse, g)]) := by
  obtain ⟨hliteral, hprogress, htokens⟩ := step_complete hg
  have hspelling := h.spelling
  rw [reverse_spelling_reading hg] at hspelling
  refine ⟨?_, ?_, fun k i => ?_, ?_, ?_⟩
  · rw [hliteral, hprogress, hspelling]
    simp [Parts.spelling, Complete.spelling, Progress.spelling]
  · rw [htokens, h.tokens]
    simp [Parts.tokens]
  · rw [occursAt_concat_iff, h.occurs, h.completes_iff, Parts.holdsAt_concat_iff]
    refine or_congr_right ⟨?_, ?_⟩
    · rintro ⟨_, hk, hi⟩
      have hkg : k = g := by
        obtain ⟨hbase, hbar, hreading⟩ := Progress.reading.inj (hk.symm.trans hg)
        exact Complete.ext (List.reverse_injective hbase) hbar (List.reverse_injective hreading)
      subst hkg
      refine ⟨rfl, ?_⟩
      rw [hspelling] at hi
      simp only [List.length_append, List.length_cons] at hi ⊢
      omega
    · rintro ⟨rfl, rfl⟩
      refine ⟨rfl, hg, ?_⟩
      rw [hspelling]
      simp only [List.length_append, List.length_cons]
      omega
  · exact progress_step s closeBracket ▸ h.sound.next closeBracket
  · exact progress_step s closeBracket ▸ h.tracks.next closeBracket

/-- Every scan hands out the groups of its text. -/
theorem exists_scanned (cs : List Char) : ∃ ps, Scanned cs (cs.foldl Scan.step .start) ps := by
  induction cs using List.reverseRecOn with
  | nil => exact ⟨[], scanned_start⟩
  | append_singleton cs c ih =>
    obtain ⟨ps, h⟩ := ih
    rw [List.foldl_concat]
    by_cases hclosed : c = closeBracket ∧ ∃ b bar r,
        (cs.foldl Scan.step .start).progress = .reading b bar r
    · obtain ⟨rfl, b, bar, r, hp⟩ := hclosed
      obtain ⟨g, hbase, rfl, hreading⟩ := Progress.IsSound.exists_complete (hp ▸ h.sound)
      rw [← List.reverse_eq_iff.mpr hbase, ← List.reverse_eq_iff.mpr hreading] at hp
      exact ⟨_, h.complete hp⟩
    · exact ⟨ps, h.pending fun hc b bar r hp => hclosed ⟨hc, b, bar, r, hp⟩⟩

/-- The end of the text gives up the group under way. -/
theorem Scanned.expand_eq (h : Scanned cs (cs.foldl Scan.step .start) ps) :
    ∃ d : Division, d.Divides cs ∧ expand cs = d.tokens := by
  refine ⟨⟨ps, _⟩, ⟨h.spelling.symm, h.occurs⟩, ?_⟩
  rw [expand]
  simp only [Scan.abandon, Scan.flush, reverse_consText, h.tokens, Division.tokens,
    List.reverse_append]

end Scanning

/-- The complete groups of a text stand apart, so they divide the text in one way, and reading it
adds the tokens of this division to those already collected. -/
theorem append_divides (ts : List Token) (text : String) :
    (∀ g h i j, OccursAt g text.toList i → OccursAt h text.toList j →
      g = h ∧ i = j ∨ i + g.spelling.length ≤ j ∨ j + h.spelling.length ≤ i) ∧
    ∃ d : Division, d.Divides text.toList ∧ (∀ e : Division, e.Divides text.toList → e = d) ∧
      append ts text = ts ++ d.tokens := by
  obtain ⟨ps, h⟩ := exists_scanned text.toList
  obtain ⟨d, hd, hexpand⟩ := h.expand_eq
  refine ⟨fun g h i j hg hh => ?_, d, hd, fun e he => ?_, ?_⟩
  · exact ((hd.groups g i).mp hg).apart ((hd.groups h j).mp hh)
  · exact Division.eq_of_groups (he.spelling.trans hd.spelling.symm) fun g i =>
      (he.groups g i).symm.trans (hd.groups g i)
  · rw [append, hexpand]

example : append [.paragraphEnd] "【a【b|c】】" =
    [.paragraphEnd, ⟨.text, "【a"⟩, ⟨.tag, "rb"⟩, ⟨.text, "b"⟩, ⟨.tag, "/rb"⟩, ⟨.tag, "rt"⟩,
      ⟨.text, "c"⟩, ⟨.tag, "/rt"⟩, ⟨.text, "】"⟩] := by decide

end Typeset.Markup.Group
