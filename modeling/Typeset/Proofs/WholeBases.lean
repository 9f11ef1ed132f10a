import Typeset.Proofs.BaseRuns
import Typeset.Proofs.PairRule
import Typeset.Proofs.RightToLeft

/-!
# Bases stay on their line

The pair classifier marks no place inside a base and replaces no glyph of one, unless a space is
all of the base. So a base stays on one line, together with the annotations that follow it. The two
classifiers that look at one glyph at a time clear every glyph of a base but its first: a base that
starts with a space is torn behind it.
-/

namespace Typeset

open Glyph

variable {α τ : Type}

section Breaker

variable [Scalar α] {first rest : α} {gs : List (Glyph α τ)} {b : ℕ}

/-- The breaker keeps a split or removes it. -/
theorem split_breakGreedy (first rest : α) (gs : List (Glyph α τ)) :
    List.Forall₂ (fun g h => h.split = g.split ∨ h.split = .none) gs
      (breakGreedy first rest gs) := by
  apply forall₂_map_zipIdx
  intro g n
  dsimp only
  split_ifs
  · exact .inr rfl
  · exact .inl rfl

theorem isCut_of_breakGreedy (h : IsCut (breakGreedy first rest gs) b) : IsCut gs b := by
  intro g k hpos hg hk
  have hsplit := (split_breakGreedy first rest gs).flip
  obtain ⟨g', hg', hgg⟩ := exists_left_of_forall₂ hsplit hg
  obtain ⟨k', hk', hkk⟩ := exists_left_of_forall₂ hsplit hk
  have hcut := h g' k' hpos hg' hk'
  rw [joins_eq_false_iff] at hcut ⊢
  rcases hcut with hcut | hcut
  · rcases hgg with hgg | hgg <;> simp_all
  · rcases hkk with hkk | hkk <;> simp_all

/-- Filling lines tears nothing that the marks hold together. -/
theorem onOneLine_breakGreedy {s : Span} (hlt : s.start < s.stop) (h : OnOneLine gs s) :
    OnOneLine (breakGreedy first rest gs) s :=
  h.of_cuts (split_breakGreedy first rest gs).length_eq.symm (fun _ => isCut_of_breakGreedy) hlt

end Breaker

section Pairs

variable (classOf : Glyph α τ → BreakClass) (gs : List (Glyph α τ))

/-- A split that tears no base: no break inside one, and a break in place of a glyph only where
this is a space and the last glyph of a base, if it is of one, as well as its first. -/
structure Spared (i : ℕ) (split : Split) : Prop where
  before : split = .before → ¬ InsideBase gs i
  first : split = .replace → ¬ InsideBase gs i
  last : split = .replace → ¬ InsideBase gs (i + 1)
  space : split = .replace → ∃ g, gs[i]? = some g ∧ classOf g = .SP

namespace PairScan

/-- Before glyph `n`, neither the marks made so far nor the space to be marked tear a base. -/
structure Spares (n : ℕ) (s : PairScan) : Prop where
  inBase : 0 < n → BaseAt gs (n - 1) → s.inBase = true
  lt : ∀ j, s.space = some j → j < n
  first : ∀ j, s.space = some j → ¬ InsideBase gs j
  last : ∀ j, s.space = some j → j + 1 < n → ¬ InsideBase gs (j + 1)
  space : ∀ j, s.space = some j → ∃ g, gs[j]? = some g ∧ classOf g = .SP
  marks : ∀ i m, (i, m) ∈ s.marks → Spared classOf gs i m

variable {classOf gs} {n : ℕ} {s : PairScan}

theorem spares_start : Spares classOf gs 0 start where
  inBase h := absurd h (lt_irrefl 0)
  lt _ h := by cases h
  first _ h := by cases h
  last _ h := by cases h
  space _ h := by cases h
  marks _ _ h := by cases h

/-- A mark is a break before the glyph, or in place of the last space. -/
theorem mem_mark {cls : BreakClass} {i : ℕ} {m : Split} (h : (i, m) ∈ s.mark n cls) :
    i = n ∧ m = .before ∨ s.space = some i ∧ m = .replace := by
  unfold mark at h
  cases hb : s.before with
  | none => simp [hb] at h
  | some before =>
    rw [hb] at h
    dsimp only at h
    cases hs : s.space <;> cases hact : pairAction before cls <;> simp_all

variable (h : Spares classOf gs n s) (hn : ¬ InsideBase gs n)

include h hn

theorem Spares.last_succ {j : ℕ} (hj : s.space = some j) : ¬ InsideBase gs (j + 1) := by
  rcases Nat.lt_or_ge (j + 1) n with hlt | hge
  · exact h.last j hj hlt
  · rwa [show j + 1 = n from le_antisymm (h.lt j hj) hge]

variable {base : InBase} (hbase : BaseAt gs n → base = true)

include hbase

/-- Past a glyph that changes nothing but whether a base may go on. -/
theorem Spares.skip : Spares classOf gs (n + 1) { s with inBase := base } where
  inBase _ := hbase
  lt j hj := (h.lt j hj).trans (Nat.lt_succ_self n)
  first := h.first
  last _ hj _ := h.last_succ hn hj
  space := h.space
  marks := h.marks

/-- Past a space. -/
theorem Spares.pause {g : Glyph α τ} (hg : gs[n]? = some g) (hsp : classOf g = .SP) :
    Spares classOf gs (n + 1) { s with space := some n, inBase := base } where
  inBase _ := hbase
  lt _ hj := Option.some.inj hj ▸ Nat.lt_succ_self n
  first j hj := Option.some.inj hj ▸ hn
  last j hj hlt := by
    obtain rfl := Option.some.inj hj
    exact absurd hlt (lt_irrefl _)
  space j hj := Option.some.inj hj ▸ ⟨g, hg, hsp⟩
  marks := h.marks

/-- Past a glyph that the rules look at. -/
theorem Spares.pass (cls : BreakClass) : Spares classOf gs (n + 1) (s.pass n cls base) where
  inBase _ := hbase
  lt _ hj := by cases hj
  first _ hj := by cases hj
  last _ hj := by cases hj
  space _ hj := by cases hj
  marks i m hm := by
    rcases List.mem_append.mp hm with hm | hm
    · rcases mem_mark hm with ⟨rfl, rfl⟩ | ⟨hj, rfl⟩
      · exact ⟨fun _ => hn, by simp, by simp, by simp⟩
      · exact ⟨by simp, fun _ => h.first i hj, fun _ => h.last_succ hn hj, fun _ => h.space i hj⟩
    · exact h.marks i m hm

omit hn hbase

theorem Spares.step {g : Glyph α τ} (hg : gs[n]? = some g) :
    Spares classOf gs (n + 1) (s.step classOf (g, n)) := by
  rw [PairScan.step]
  by_cases hann : g.annotates = true
  · have hnot : ¬ BaseAt gs n := AnnotationAt.not_roleAt ⟨g, hg, hann⟩ rfl
    rw [if_pos hann]
    exact h.skip (fun hin => hnot hin.2.2) fun hat => absurd hat hnot
  have hbase : BaseAt gs n → (g.ruby == .base) = true := fun hat => by simpa using hat.ruby_eq hg
  rw [if_neg hann]
  dsimp only
  by_cases hin : (g.ruby == .base && s.inBase) = true
  · rw [if_pos hin]
    rw [Bool.and_eq_true] at hin
    exact ⟨fun _ _ => hin.2, fun _ hj => (by cases hj), fun _ hj => (by cases hj),
      fun _ hj => (by cases hj), fun _ hj => (by cases hj), h.marks⟩
  · have hn : ¬ InsideBase gs n := by
      rintro ⟨hpos, hprev, hat⟩
      exact hin (by rw [hbase hat, h.inBase hpos hprev]; rfl)
    rw [if_neg hin]
    split_ifs with hsp hcm hatt
    · exact h.pause hn hbase hg hsp
    · exact h.skip hn hbase
    · exact h.pass hn hbase .AL
    · exact h.pass hn hbase (classOf g)

omit h in
theorem spares_run :
    Spares classOf gs gs.length (gs.zipIdx.foldl (PairScan.step classOf) .start) :=
  foldl_zipIdx_run (P := Spares classOf gs) spares_start fun _ _ _ hg h => h.step hg

end PairScan

variable {classOf gs} {i : ℕ} {g k : Glyph α τ}

theorem spared_markPairs (hg : gs[i]? = some g) (hk : (markPairs classOf gs)[i]? = some k)
    (htext : g.annotates = false) : Spared classOf gs i k.split := by
  rw [getElem?_markPairs, hg, Option.map_some] at hk
  rw [← Option.some.inj hk]
  unfold withMark
  rw [if_neg (by simp [htext])]
  cases hl : (pairMarks classOf gs).lookup i with
  | none =>
    dsimp only
    split_ifs with hhang
    · exact ⟨by simp [hhang], by simp [hhang], by simp [hhang], by simp [hhang]⟩
    · exact ⟨by simp, by simp, by simp, by simp⟩
  | some m =>
    obtain ⟨l, l', hl', _⟩ := List.lookup_eq_some_iff.mp hl
    exact PairScan.spares_run.marks i m (by rw [← pairMarks, hl']; simp)

/-- A base that is but a space. -/
def IsLoneSpace (classOf : Glyph α τ → BreakClass) (gs : List (Glyph α τ)) (run : Span) : Prop :=
  run.stop = run.start + 1 ∧ ∃ g, gs[run.start]? = some g ∧ classOf g = .SP

/-- The breaks of a text leave every base on one line, and with it the annotations that follow it,
unless the base is but a space. -/
structure KeepsBases (classOf : Glyph α τ → BreakClass) (gs broken : List (Glyph α τ)) : Prop where
  base : ∀ run, IsBaseRun gs run → OnOneLine broken run
  readings : ∀ run stop, IsBaseRun gs run → ¬ IsLoneSpace classOf gs run →
    (∀ i, run.stop ≤ i → i < stop → AnnotationAt gs i) → OnOneLine broken ⟨run.start, stop⟩

theorem KeepsBases.breakGreedy [Scalar α] {broken : List (Glyph α τ)}
    (h : KeepsBases classOf gs broken) (first rest : α) :
    KeepsBases classOf gs (breakGreedy first rest broken) where
  base run hrun := onOneLine_breakGreedy hrun.lt (h.base run hrun)
  readings run stop hrun hlone hann := by
    rcases Nat.lt_or_ge run.start stop with hlt | hge
    · exact onOneLine_breakGreedy hlt (h.readings run stop hrun hlone hann)
    · obtain ⟨line, hline, hstart, hstop⟩ := onOneLine_breakGreedy hrun.lt (h.base run hrun)
      exact ⟨line, hline, hstart, hge.trans (hrun.lt.le.trans hstop)⟩

/-- An annotation that carries no break gets none. -/
theorem split_of_annotationAt (hann : AnnotationsUnbroken gs) (hg : AnnotationAt gs i)
    (hk : (markPairs classOf gs)[i]? = some k) : k.split ≠ .before ∧ k.split ≠ .replace := by
  obtain ⟨g, hg, hgann⟩ := hg
  rw [getElem?_markPairs, hg, Option.map_some] at hk
  rw [← Option.some.inj hk]
  unfold withMark
  rw [if_pos hgann]
  exact hann g (List.mem_of_getElem? hg) hgann

theorem exists_markPairs (classOf : Glyph α τ → BreakClass) (hi : i < gs.length) :
    ∃ g k, gs[i]? = some g ∧ (markPairs classOf gs)[i]? = some k := by
  have hlen : gs.length = (markPairs classOf gs).length :=
    (rebreaks_markPairs classOf gs).length_eq
  exact ⟨gs[i], _, List.getElem?_eq_getElem hi, List.getElem?_eq_getElem (hlen ▸ hi)⟩

/-- Between two glyphs of a base the marked text is not cut. -/
theorem not_isCut_of_insideBase (h : InsideBase gs (i + 1)) :
    ¬ IsCut (markPairs classOf gs) (i + 1) := by
  have hprev : BaseAt gs i := h.2.1
  obtain ⟨g, k, hg, hk⟩ := exists_markPairs classOf hprev.lt_length
  obtain ⟨g', k', hg', hk'⟩ := exists_markPairs classOf h.2.2.lt_length
  rw [isCut_succ_iff hk hk']
  rintro (hsplit | hsplit)
  · exact (spared_markPairs hg hk (annotates_of_base (hprev.ruby_eq hg))).last hsplit h
  · exact (spared_markPairs hg' hk' (annotates_of_base (h.2.2.ruby_eq hg'))).before hsplit h

/-- Before an annotation the marked text is cut behind a base that is but a space at most. -/
theorem not_isCut_of_annotationAt (hann : AnnotationsUnbroken gs)
    (hnext : AnnotationAt gs (i + 1)) (hat : AnnotationAt gs i ∨ BaseAt gs i ∧
      (InsideBase gs i ∨ ∀ g, gs[i]? = some g → classOf g ≠ .SP)) :
    ¬ IsCut (markPairs classOf gs) (i + 1) := by
  obtain ⟨g', hg', _⟩ := id hnext
  have hlt := (List.getElem?_eq_some_iff.mp hg').1
  obtain ⟨_, k', _, hk'⟩ := exists_markPairs classOf hlt
  obtain ⟨g, k, hg, hk⟩ := exists_markPairs classOf (Nat.lt_of_succ_lt hlt)
  rw [isCut_succ_iff hk hk', or_iff_left (split_of_annotationAt hann hnext hk').1]
  rcases hat with hat | ⟨hbase, hat⟩
  · exact (split_of_annotationAt hann hat hk).2
  · have hspared := spared_markPairs hg hk (annotates_of_base (hbase.ruby_eq hg))
    intro hsplit
    rcases hat with hin | hclass
    · exact hspared.first hsplit hin
    · obtain ⟨g, hg, hsp⟩ := hspared.space hsplit
      exact hclass g hg hsp

theorem keepsBases_markPairs (hann : AnnotationsUnbroken gs) :
    KeepsBases classOf gs (markPairs classOf gs) := by
  have hlen : gs.length = (markPairs classOf gs).length :=
    (rebreaks_markPairs classOf gs).length_eq
  have hbase : ∀ run, IsBaseRun gs run → ∀ b, run.start < b → b < run.stop →
      ¬ IsCut (markPairs classOf gs) b := by
    intro run hrun b hb hb'
    obtain ⟨c, rfl⟩ : ∃ c, b = c + 1 := ⟨b - 1, by omega⟩
    exact not_isCut_of_insideBase (hrun.insideBase hb hb')
  have hone : ∀ run, IsBaseRun gs run → OnOneLine (markPairs classOf gs) run := fun run hrun =>
    (onOneLine_iff hrun.lt (hlen ▸ hrun.stop_le)).mpr (hbase run hrun)
  refine ⟨hone, fun run stop hrun hlone hreading => ?_⟩
  rcases Nat.lt_or_ge run.stop stop with hstop | hstop
  · have hle : stop ≤ gs.length := by
      obtain ⟨g, hg, _⟩ := hreading (stop - 1) (by omega) (by omega)
      have := (List.getElem?_eq_some_iff.mp hg).1
      omega
    have hlt := hrun.lt
    refine (onOneLine_iff (s := ⟨run.start, stop⟩) (hlt.trans hstop) (hlen ▸ hle)).mpr ?_
    intro b hb hb'
    dsimp only at hb hb'
    obtain ⟨c, rfl⟩ : ∃ c, b = c + 1 := ⟨b - 1, by omega⟩
    rcases Nat.lt_trichotomy (c + 1) run.stop with hin | heq | hout
    · exact hbase run hrun (c + 1) hb hin
    · -- the glyph before the first annotation is the last of the base
      refine not_isCut_of_annotationAt hann (hreading (c + 1) heq.ge hb')
        (.inr ⟨hrun.inside c (by omega) (by omega), ?_⟩)
      rcases Nat.lt_or_ge run.start c with hc | hc
      · exact .inl (hrun.insideBase hc (by omega))
      · obtain rfl : c = run.start := by omega
        exact .inr fun g hg hsp => hlone ⟨heq.symm, g, hg, hsp⟩
    · exact not_isCut_of_annotationAt hann (hreading (c + 1) hout.le hb')
        (.inl (hreading c (by omega) (by omega)))
  · obtain ⟨line, hline, hstart, hle⟩ := hone run hrun
    exact ⟨line, hline, hstart, hstop.trans hle⟩

/-- The pair classifier and the breaker after it leave every base on one line with its readings. -/
theorem mark_pairs_keepsBases [Scalar α] (table : ClassTable) (profile : Profile)
    (noIdeographs : Bool) (hann : AnnotationsUnbroken gs) :
    let marked := (Classifier.pairs profile noIdeographs).mark table gs
    let classOf : Glyph α τ → BreakClass := glyphClass table profile noIdeographs
    KeepsBases classOf gs marked ∧
      ∀ first rest : α, KeepsBases classOf gs (breakGreedy first rest marked) := by
  intro marked classOf
  have h : KeepsBases classOf gs marked := keepsBases_markPairs hann
  exact ⟨h, h.breakGreedy⟩

/-- A letter, a base that starts with a space, its reading, and a word apart. -/
def spacedBase : List (Glyph ℚ ℚ) :=
  [.ofCode 97 1, { (.ofCode 32 1 : Glyph ℚ ℚ) with ruby := .base },
    { (.ofCode 98 1 : Glyph ℚ ℚ) with ruby := .base },
    { (.ofCode 120 1 : Glyph ℚ ℚ) with ruby := .above }, .ofCode 32 1, .ofCode 99 1]

theorem isBaseRun_spacedBase : IsBaseRun spacedBase ⟨1, 3⟩ where
  lt := by decide
  inside := by decide +kernel
  left := by decide +kernel
  right := by decide +kernel

theorem mark_pairs_keepsBases_spacedBase :
    AnnotationsUnbroken spacedBase ∧ OnOneLine (breakGreedy 1 1
      ((Classifier.pairs .western false).mark .default spacedBase)) ⟨1, 4⟩ := by
  have hann : AnnotationsUnbroken spacedBase := by
    simp [AnnotationsUnbroken, spacedBase, ofCode]
  have h := (mark_pairs_keepsBases .default .western false hann).2 1 1
  refine ⟨hann, h.readings ⟨1, 3⟩ 4 isBaseRun_spacedBase (fun hlone => ?_) fun i hi hi' => ?_⟩
  · cases hlone.1
  · obtain rfl : i = 3 := by simp only at hi; omega
    exact ⟨_, rfl, rfl⟩

end Pairs

section Single

variable {step : InBase → Glyph α τ → InBase × Glyph α τ} {ends : Glyph α τ → Prop}
  {gs : List (Glyph α τ)} {i : ℕ} {g k : Glyph α τ}

/-- One glyph after another is marked: in a base all but the first are cleared, and the first is
replaced by a break where `ends` says so. -/
structure ClearsBases (step : InBase → Glyph α τ → InBase × Glyph α τ)
    (ends : Glyph α τ → Prop) : Prop where
  next : ∀ inBase g, (step inBase g).1 = (g.ruby == .base)
  clears : ∀ g, g.ruby = .base → (step true g).2.split = .none
  replaces_iff : ∀ g, g.ruby = .base → ((step false g).2.split = .replace ↔ ends g)

theorem annotates_iff_ruby (g : Glyph α τ) : g.annotates = true → (g.ruby == .base) = false := by
  cases hruby : g.ruby <;> simp [annotates, hruby, RubyRole.annotates]

/-- A glyph that the first of the two classifiers replaces where a base starts with it. -/
def Glyph.EndsWestern (g : Glyph α τ) : Prop :=
  g.isObject = false ∧ (g.isSpace = true ∨ g.split = .replace)

theorem clearsBases_western : ClearsBases (westernStep (α := α) (τ := τ)) EndsWestern where
  next inBase g := by
    unfold westernStep
    dsimp only
    split_ifs with hann
    · exact (annotates_iff_ruby g hann).symm
    all_goals rfl
  clears g hbase := by simp [westernStep, annotates_of_base hbase, hbase]
  replaces_iff g hbase := by
    unfold westernStep EndsWestern
    rw [if_neg (by simp [annotates_of_base hbase])]
    simp only [Bool.false_and, Bool.false_eq_true, if_false]
    split_ifs with hobject hspace
    · simp [hobject]
    · simp [hobject, hspace]
    · simp [hobject, hspace]

theorem clearsBases_anywhere :
    ClearsBases (anywhereStep (α := α) (τ := τ)) fun g => g.isSpace = true where
  next inBase g := by
    unfold anywhereStep
    dsimp only
    split_ifs with hann
    · exact (annotates_iff_ruby g hann).symm
    all_goals rfl
  clears g hbase := by simp [anywhereStep, annotates_of_base hbase, hbase]
  replaces_iff g hbase := by
    unfold anywhereStep
    rw [if_neg (by simp [annotates_of_base hbase])]
    simp only [Bool.false_and, Bool.false_eq_true, if_false]
    split_ifs with hspace
    · simp [hspace]
    · simp [hspace]

/-- How the breaks of a text treat a base run that they may tear behind its first glyph alone, and
only if they replace that glyph; filling lines tears no more. -/
structure TearsFirst [Scalar α] (broken : List (Glyph α τ)) (run : Span) (replaced : Prop) :
    Prop where
  whole_iff : OnOneLine broken run ↔ run.stop = run.start + 1 ∨ ¬ replaced
  rest : run.start + 1 < run.stop → OnOneLine broken ⟨run.start + 1, run.stop⟩
  whole_filled : ¬ replaced → ∀ first rest : α, OnOneLine (breakGreedy first rest broken) run
  rest_filled : run.start + 1 < run.stop → ∀ first rest : α,
    OnOneLine (breakGreedy first rest broken) ⟨run.start + 1, run.stop⟩

variable (h : ClearsBases step ends)

include h

/-- Before a glyph the walk knows whether it follows a glyph of a base. -/
theorem ClearsBases.state (hi : i < gs.length) :
    (sweep step false (gs.take i)).1 = true ↔ 0 < i ∧ BaseAt gs (i - 1) := by
  cases i with
  | zero => simp
  | succ i =>
    have hg : gs[i]? = some gs[i] := List.getElem?_eq_getElem _
    rw [sweep_take_succ step false hg, h.next, Nat.add_sub_cancel, BaseAt,
      roleAt_iff hg]
    simp

theorem ClearsBases.getElem?_sweep (hbase : BaseAt gs i) : ∃ g, gs[i]? = some g ∧
    g.ruby = .base ∧ ∃ inBase, (sweep step false gs).2[i]? = some (step inBase g).2 ∧
      (inBase = true ↔ InsideBase gs i) := by
  obtain ⟨g, hg, hruby⟩ := id hbase
  refine ⟨g, hg, hruby, _, by rw [Typeset.getElem?_sweep, hg, Option.map_some], ?_⟩
  rw [h.state hbase.lt_length, InsideBase]
  tauto

/-- Inside a base the marked text is cut behind its first glyph, if that is replaced, and nowhere
else. -/
theorem ClearsBases.isCut_iff (hin : InsideBase gs (i + 1)) :
    IsCut (sweep step false gs).2 (i + 1) ↔
      ¬ InsideBase gs i ∧ ∃ g, gs[i]? = some g ∧ ends g := by
  obtain ⟨g, hg, hbase, inBase, hk, hinBase⟩ := h.getElem?_sweep (i := i) hin.2.1
  obtain ⟨g', _, hbase', inBase', hk', hinBase'⟩ := h.getElem?_sweep hin.2.2
  rw [hinBase'.mpr hin] at hk'
  rw [isCut_succ_iff hk hk', h.clears g' hbase', or_iff_left (by simp)]
  by_cases hi : InsideBase gs i
  · rw [hinBase.mpr hi, h.clears g hbase]
    simp [hi]
  · rw [Bool.eq_false_iff.mpr (mt hinBase.mp hi), h.replaces_iff g hbase]
    simp [hi, hg]

theorem ClearsBases.tearsFirst [Scalar α] {run : Span} (hrun : IsBaseRun gs run) :
    TearsFirst (sweep step false gs).2 run (∃ g, gs[run.start]? = some g ∧ ends g) := by
  have hle : run.stop ≤ (sweep step false gs).2.length := by
    rw [length_sweep]
    exact hrun.stop_le
  have hcut : ∀ c, run.start ≤ c → c + 1 < run.stop → (IsCut (sweep step false gs).2 (c + 1) ↔
      c = run.start ∧ ∃ g, gs[c]? = some g ∧ ends g) := by
    intro c hc hc'
    rw [h.isCut_iff (hrun.insideBase (by omega) hc')]
    refine and_congr_left fun _ => ⟨fun hfirst => ?_, ?_⟩
    · by_contra hne
      exact hfirst (hrun.insideBase (by omega) (by omega))
    · rintro rfl ⟨hpos, hprev, _⟩
      exact hrun.left hpos hprev
  have hwhole : OnOneLine (sweep step false gs).2 run ↔
      run.stop = run.start + 1 ∨ ¬ ∃ g, gs[run.start]? = some g ∧ ends g := by
    have hlt := hrun.lt
    rw [onOneLine_iff hlt hle]
    constructor
    · intro huncut
      by_contra hboth
      obtain ⟨hne, hends⟩ := not_or.mp hboth
      refine huncut (run.start + 1) (by omega) (by omega) ?_
      exact (hcut run.start le_rfl (by omega)).mpr ⟨rfl, not_not.mp hends⟩
    · intro hwhole b hb hb' hc
      obtain ⟨c, rfl⟩ : ∃ c, b = c + 1 := ⟨b - 1, by omega⟩
      obtain ⟨rfl, hends⟩ := (hcut c (by omega) hb').mp hc
      rcases hwhole with hone | hnot
      · omega
      · exact hnot hends
  have hrest : run.start + 1 < run.stop →
      OnOneLine (sweep step false gs).2 ⟨run.start + 1, run.stop⟩ := by
    intro hlt
    refine (onOneLine_iff (s := ⟨run.start + 1, run.stop⟩) hlt hle).mpr fun b hb hb' hc => ?_
    dsimp only at hb hb'
    obtain ⟨c, rfl⟩ : ∃ c, b = c + 1 := ⟨b - 1, by omega⟩
    obtain ⟨rfl, _⟩ := (hcut c (by omega) hb').mp hc
    exact absurd hb (lt_irrefl _)
  exact ⟨hwhole, hrest, fun hnot _ _ => onOneLine_breakGreedy hrun.lt (hwhole.mpr (.inr hnot)),
    fun hlt _ _ => onOneLine_breakGreedy (s := ⟨run.start + 1, run.stop⟩) hlt (hrest hlt)⟩

end Single

/-- The classifiers that look at one glyph at a time keep a base whole, unless its first glyph is
replaced: then it is torn behind that glyph and nowhere else. -/
theorem mark_single_tearsFirst [Scalar α] {gs : List (Glyph α τ)} {run : Span}
    (hrun : IsBaseRun gs run) :
    TearsFirst (markWestern gs) run (∃ g, gs[run.start]? = some g ∧ g.EndsWestern) ∧
      TearsFirst (markAnywhere gs) run (∃ g, gs[run.start]? = some g ∧ g.isSpace = true) :=
  ⟨clearsBases_western.tearsFirst hrun, clearsBases_anywhere.tearsFirst hrun⟩

theorem mark_single_tearsFirst_spacedBase :
    IsBaseRun spacedBase ⟨1, 3⟩ ∧ OnOneLine (breakGreedy 1 1 (markWestern spacedBase)) ⟨2, 3⟩ :=
  ⟨isBaseRun_spacedBase,
    (mark_single_tearsFirst isBaseRun_spacedBase).1.rest_filled (by decide) 1 1⟩

/-- A base that starts with a space does not stay on one line. -/
theorem mark_single_tears_spacedBase :
    AnnotationsUnbroken spacedBase ∧ IsBaseRun spacedBase ⟨1, 3⟩ ∧
      ¬ OnOneLine (markWestern spacedBase) ⟨1, 3⟩ ∧
      ¬ OnOneLine (breakGreedy 1 1 (markWestern spacedBase)) ⟨1, 3⟩ ∧
      ¬ OnOneLine (markAnywhere spacedBase) ⟨1, 3⟩ ∧
      ¬ OnOneLine (breakGreedy 1 1 (markAnywhere spacedBase)) ⟨1, 3⟩ := by
  refine ⟨?_, isBaseRun_spacedBase, ?_⟩
  · simp [AnnotationsUnbroken, spacedBase, ofCode]
  · decide +kernel

end Typeset
