import Mathlib.Tactic
import Typeset.Proofs.Content
import Typeset.Proofs.Positions

/-!
# What the pair rules mark

A glyph of text is significant unless it is a space or a mark attached to a significant glyph. The
rules act on consecutive significant glyphs: where no space stands between them the second may be
marked, else the last of the spaces. The walk over the glyphs finds exactly these marks.
-/

namespace Typeset

variable {α τ : Type}

/-- No two base glyphs follow each other. -/
def BasesApart (gs : List (Glyph α τ)) : Prop :=
  gs.IsChain fun g h => ¬ (g.ruby = .base ∧ h.ruby = .base)

theorem BasesApart.not_both {gs : List (Glyph α τ)} (h : BasesApart gs) {n : ℕ} (hpos : 0 < n)
    {g k : Glyph α τ} (hk : gs[n - 1]? = some k) (hg : gs[n]? = some g) :
    ¬ (k.ruby = .base ∧ g.ruby = .base) := by
  obtain ⟨hlt, rfl⟩ := List.getElem?_eq_some_iff.mp hg
  obtain ⟨hlt', rfl⟩ := List.getElem?_eq_some_iff.mp hk
  have hnext := List.isChain_iff_getElem.mp h (n - 1) (by omega)
  simpa [Nat.sub_add_cancel hpos] using hnext

section Rule

variable (classOf : Glyph α τ → BreakClass) (gs : List (Glyph α τ))

/-- The class of the glyph at a position. Annotations are passed over and have none. -/
def classAt (i : ℕ) : Option BreakClass := (gs[i]?.filter fun g => !g.annotates).map classOf

/-- A space stands at the position. -/
def SpaceAt (i : ℕ) : Prop := classAt classOf gs i = some .SP

/-- A significant glyph is not a space, nor a mark that follows the last significant glyph before
it without a space between. -/
def Significant (i : ℕ) : Prop :=
  ∃ c, classAt classOf gs i = some c ∧ c ≠ .SP ∧
    ¬ (c = .CM ∧ ∃ j, ∃ _ : j < i, Significant j ∧ (∀ k, ∀ _ : k < i, j < k → ¬ Significant k) ∧
      ∀ k, j < k → k < i → ¬ SpaceAt classOf gs k)
termination_by i

/-- A mark that belongs to the last significant glyph before it. -/
def Attached (i : ℕ) : Prop :=
  classAt classOf gs i = some .CM ∧ ∃ j, IsLastBefore (Significant classOf gs) i j ∧
    ∀ k, j < k → k < i → ¬ SpaceAt classOf gs k

/-- A significant mark counts as a letter. -/
def BreakClass.counted (c : BreakClass) : BreakClass := if c = .CM then .AL else c

/-- Consecutive significant glyphs with the action of the pair rules on their classes. -/
structure Meets (p q : ℕ) (a : Action) : Prop where
  significant : Significant classOf gs q
  last : IsLastBefore (Significant classOf gs) q p
  action : ∃ b c, classAt classOf gs p = some b ∧ classAt classOf gs q = some c ∧
    a = pairAction b.counted c.counted

/-- The marks that the pair rules make at the place before the significant glyph `q`: on the glyph
itself, or on the last of the spaces before it. -/
inductive Marked (q : ℕ) : ℕ → Split → Prop
  | before {p : ℕ} (meets : Meets classOf gs p q .direct)
      (unspaced : ∀ k, p < k → k < q → ¬ SpaceAt classOf gs k) : Marked q q .before
  | replace {p j : ℕ} {a : Action} (meets : Meets classOf gs p q a) (allowed : a ≠ .prohibited)
      (space : IsLastBefore (SpaceAt classOf gs) q j) (between : p < j) : Marked q j .replace

end Rule

section Positions

variable {classOf : Glyph α τ → BreakClass} {gs : List (Glyph α τ)} {i : ℕ}

theorem significant_iff : Significant classOf gs i ↔
    ∃ c, classAt classOf gs i = some c ∧ c ≠ .SP ∧ ¬ Attached classOf gs i := by
  rw [Significant]
  refine exists_congr fun c => and_congr_right fun hc => and_congr_right fun _ => not_congr ?_
  constructor
  · rintro ⟨rfl, j, hj, hsig, hlast, hspace⟩
    exact ⟨hc, j, ⟨hj, hsig, fun k hjk hk => hlast k hk hjk⟩, hspace⟩
  · rintro ⟨hcm, j, ⟨hj, hsig, hlast⟩, hspace⟩
    exact ⟨Option.some.inj (hc.symm.trans hcm), j, hj, hsig, fun k hk hjk => hlast k hjk hk,
      hspace⟩

theorem Significant.not_space (h : Significant classOf gs i) : ¬ SpaceAt classOf gs i := by
  obtain ⟨c, hc, hsp, _⟩ := significant_iff.mp h
  intro hspace
  exact hsp (Option.some.inj (hc.symm.trans hspace))

theorem not_significant_of_none (h : classAt classOf gs i = none) :
    ¬ Significant classOf gs i := by
  intro hsig
  obtain ⟨c, hc, _⟩ := significant_iff.mp hsig
  rw [h] at hc
  cases hc

theorem classAt_of_annotates {g : Glyph α τ} (hg : gs[i]? = some g) (h : g.annotates = true) :
    classAt classOf gs i = none := by
  simp [classAt, hg, h]

theorem classAt_of_text {g : Glyph α τ} (hg : gs[i]? = some g) (h : g.annotates = false) :
    classAt classOf gs i = some (classOf g) := by
  simp [classAt, hg, h]

end Positions

section Marks

variable {classOf : Glyph α τ → BreakClass} {gs : List (Glyph α τ)} {p q i : ℕ} {m : Split}

theorem Marked.significant (h : Marked classOf gs q i m) : Significant classOf gs q := by
  cases h with
  | before meets _ => exact meets.significant
  | replace meets _ _ _ => exact meets.significant

theorem Marked.exists_meets (h : Marked classOf gs q i m) : ∃ p a, Meets classOf gs p q a := by
  cases h with
  | before meets _ => exact ⟨_, _, meets⟩
  | replace meets _ _ _ => exact ⟨_, _, meets⟩

theorem Meets.unique {r : ℕ} {a b : Action} (ha : Meets classOf gs p q a)
    (hb : Meets classOf gs r q b) : p = r ∧ a = b := by
  obtain rfl := ha.last.unique hb.last
  obtain ⟨c, d, hc, hd, rfl⟩ := ha.action
  obtain ⟨c', d', hc', hd', rfl⟩ := hb.action
  rw [hc] at hc'
  rw [hd] at hd'
  rw [Option.some.inj hc', Option.some.inj hd']
  exact ⟨rfl, rfl⟩

/-- Next to each other, only the second of two significant glyphs can be marked. -/
theorem Meets.marked_iff_of_unspaced {a : Action} (h : Meets classOf gs p q a)
    (hfree : ∀ k, p < k → k < q → ¬ SpaceAt classOf gs k) :
    Marked classOf gs q i m ↔ a = .direct ∧ i = q ∧ m = .before := by
  constructor
  · intro hmark
    cases hmark with
    | before meets _ => exact ⟨(h.unique meets).2, rfl, rfl⟩
    | replace meets _ space between =>
      obtain ⟨rfl, _⟩ := h.unique meets
      exact absurd space.holds (hfree i between space.lt)
  · rintro ⟨rfl, rfl, rfl⟩
    exact .before h hfree

/-- With spaces between them, only the last of these can be marked. -/
theorem Meets.marked_iff_of_space {a : Action} {j : ℕ} (h : Meets classOf gs p q a)
    (hj : IsLastBefore (SpaceAt classOf gs) q j) (hpj : p < j) :
    Marked classOf gs q i m ↔ a ≠ .prohibited ∧ i = j ∧ m = .replace := by
  constructor
  · intro hmark
    cases hmark with
    | before meets unspaced =>
      obtain ⟨rfl, _⟩ := h.unique meets
      exact absurd hj.holds (unspaced j hpj hj.lt)
    | replace meets allowed space _ =>
      obtain ⟨_, rfl⟩ := h.unique meets
      exact ⟨allowed, space.unique hj, rfl⟩
  · rintro ⟨hallowed, rfl, rfl⟩
    exact .replace h hallowed hj hpj

end Marks

namespace PairScan

variable (classOf : Glyph α τ → BreakClass) (gs : List (Glyph α τ))

/-- The state before glyph `n`: the class of the last significant glyph, the last of the spaces
since then, and the marks that glyphs before `n` have given rise to. -/
structure Sees (n : ℕ) (s : PairScan) : Prop where
  unbegun : s.before = none → ∀ k < n, ¬ Significant classOf gs k
  before : ∀ b, s.before = some b → ∃ p c, IsLastBefore (Significant classOf gs) n p ∧
    classAt classOf gs p = some c ∧ b = c.counted
  unspaced : s.space = none → ∀ k < n, SpaceAt classOf gs k →
    ∃ j, k < j ∧ j < n ∧ Significant classOf gs j
  space : ∀ j, s.space = some j → IsLastBefore (SpaceAt classOf gs) n j ∧
    ∀ k, j < k → k < n → ¬ Significant classOf gs k
  inBase : s.inBase = true → ∃ g, 0 < n ∧ gs[n - 1]? = some g ∧ g.ruby = .base
  marks : ∀ i m, (i, m) ∈ s.marks ↔ ∃ q < n, Marked classOf gs q i m

variable {classOf gs} {n : ℕ} {s : PairScan}

theorem sees_start : Sees classOf gs 0 start where
  unbegun _ k hk := by omega
  before _ h := by cases h
  unspaced _ k hk := by omega
  space _ h := by cases h
  inBase h := by cases h
  marks i m := by simp [start]

theorem Sees.lt_space (h : Sees classOf gs n s) {p j : ℕ}
    (hp : IsLastBefore (Significant classOf gs) n p) (hs : s.space = some j) : p < j := by
  obtain ⟨hj, hafter⟩ := h.space j hs
  have hne : p ≠ j := by
    rintro rfl
    exact hp.holds.not_space hj.holds
  have hle : ¬ j < p := fun hjp => hafter p hjp hp.lt hp.holds
  omega

/-- Behind the last significant glyph no space stands exactly if the state has none. -/
theorem Sees.unspaced_iff (h : Sees classOf gs n s) {p : ℕ}
    (hp : IsLastBefore (Significant classOf gs) n p) :
    s.space = none ↔ ∀ k, p < k → k < n → ¬ SpaceAt classOf gs k := by
  constructor
  · intro hnone k hpk hk hspace
    obtain ⟨j, hkj, hj, hsig⟩ := h.unspaced hnone k hk hspace
    exact hp.last j (by omega) hj hsig
  · intro hfree
    cases hs : s.space with
    | none => rfl
    | some j =>
      obtain ⟨hj, _⟩ := h.space j hs
      exact absurd hj.holds (hfree j (h.lt_space hp hs) hj.lt)

theorem Sees.attached_iff (h : Sees classOf gs n s) (hc : classAt classOf gs n = some .CM) :
    Attached classOf gs n ↔ s.before.isSome = true ∧ s.space = none := by
  constructor
  · rintro ⟨_, j, hj, hfree⟩
    refine ⟨?_, (h.unspaced_iff hj).mpr hfree⟩
    cases hb : s.before with
    | none => exact absurd hj.holds (h.unbegun hb j hj.lt)
    | some b => rfl
  · rintro ⟨hbefore, hspace⟩
    obtain ⟨b, hb⟩ := Option.isSome_iff_exists.mp hbefore
    obtain ⟨p, c, hp, _⟩ := h.before b hb
    exact ⟨hc, p, hp, (h.unspaced_iff hp).mp hspace⟩

/-- At a significant glyph the state makes the marks of the pair rules. -/
theorem Sees.mem_mark (h : Sees classOf gs n s) (hn : Significant classOf gs n) {c : BreakClass}
    (hc : classAt classOf gs n = some c) (i : ℕ) (m : Split) :
    (i, m) ∈ s.mark n c.counted ↔ Marked classOf gs n i m := by
  rw [mark]
  cases hb : s.before with
  | none =>
    refine iff_of_false (by simp) fun hmark => ?_
    obtain ⟨p, a, hmeets⟩ := hmark.exists_meets
    exact h.unbegun hb p hmeets.last.lt hmeets.last.holds
  | some b =>
    obtain ⟨p, d, hp, hd, rfl⟩ := h.before b hb
    have hmeets : Meets classOf gs p n (pairAction d.counted c.counted) :=
      ⟨hn, hp, d, c, hd, hc, rfl⟩
    dsimp only
    generalize pairAction d.counted c.counted = a at hmeets ⊢
    cases hs : s.space with
    | none =>
      rw [hmeets.marked_iff_of_unspaced ((h.unspaced_iff hp).mp hs)]
      cases a <;> simp
    | some j =>
      rw [hmeets.marked_iff_of_space (h.space j hs).1 (h.lt_space hp hs)]
      cases a <;> simp

section Step

theorem marks_succ_of_not_significant (hn : ¬ Significant classOf gs n) (i : ℕ) (m : Split) :
    (∃ q < n + 1, Marked classOf gs q i m) ↔ ∃ q < n, Marked classOf gs q i m := by
  rw [Nat.exists_lt_succ_right]
  exact or_iff_left fun hmark => hn hmark.significant

/-- Past a glyph that is not significant, the last significant glyph stays the same. -/
theorem Sees.before_succ (h : Sees classOf gs n s) (hn : ¬ Significant classOf gs n) :
    ∀ b, s.before = some b → ∃ p c, IsLastBefore (Significant classOf gs) (n + 1) p ∧
      classAt classOf gs p = some c ∧ b = c.counted := by
  intro b hb
  obtain ⟨p, c, hp, hpc⟩ := h.before b hb
  exact ⟨p, c, hp.succ hn, hpc⟩

variable (h : Sees classOf gs n s) {base : InBase}
  (hbase : base = true → ∃ g, 0 < n + 1 ∧ gs[n + 1 - 1]? = some g ∧ g.ruby = .base)

include h hbase

/-- Past a glyph that is neither significant nor a space. -/
theorem Sees.skip (hn : ¬ Significant classOf gs n) (hspace : ¬ SpaceAt classOf gs n) :
    Sees classOf gs (n + 1) { s with inBase := base } where
  unbegun hb := Nat.forall_lt_succ_right.mpr ⟨h.unbegun hb, hn⟩
  before := h.before_succ hn
  unspaced hs := by
    rw [Nat.forall_lt_succ_right]
    refine ⟨fun k hk hk' => ?_, fun hk' => absurd hk' hspace⟩
    obtain ⟨j, hkj, hj, hsig⟩ := h.unspaced hs k hk hk'
    exact ⟨j, hkj, hj.trans (Nat.lt_succ_self n), hsig⟩
  space j hs := by
    obtain ⟨hj, hafter⟩ := h.space j hs
    have hnone : ∀ k < n + 1, j < k → ¬ Significant classOf gs k :=
      Nat.forall_lt_succ_right.mpr ⟨fun k hk hjk => hafter k hjk hk, fun _ => hn⟩
    exact ⟨hj.succ hspace, fun k hjk hk => hnone k hk hjk⟩
  inBase := hbase
  marks i m := (h.marks i m).trans (marks_succ_of_not_significant hn i m).symm

/-- Past a space. -/
theorem Sees.pause (hspace : SpaceAt classOf gs n) :
    Sees classOf gs (n + 1) { s with space := some n, inBase := base } := by
  have hn : ¬ Significant classOf gs n := fun hsig => hsig.not_space hspace
  refine ⟨fun hb => Nat.forall_lt_succ_right.mpr ⟨h.unbegun hb, hn⟩, h.before_succ hn,
    fun hs => (by cases hs), ?_, hbase, ?_⟩
  · intro j hj
    obtain rfl := Option.some.inj hj
    exact ⟨isLastBefore_self hspace, fun k hk hk' => by omega⟩
  · exact fun i m => (h.marks i m).trans (marks_succ_of_not_significant hn i m).symm

/-- Past a significant glyph. -/
theorem Sees.pass (hn : Significant classOf gs n) {c : BreakClass}
    (hc : classAt classOf gs n = some c) :
    Sees classOf gs (n + 1) (s.pass n c.counted base) where
  unbegun hb := by cases hb
  before b hb := ⟨n, c, isLastBefore_self hn, hc, (Option.some.inj hb).symm⟩
  unspaced _ k hk hspace := by
    have hne : k ≠ n := by
      rintro rfl
      exact hn.not_space hspace
    exact ⟨n, by omega, by omega, hn⟩
  space j hj := by cases hj
  inBase := hbase
  marks i m := by
    rw [PairScan.pass, List.mem_append, h.mem_mark hn hc, h.marks, Nat.exists_lt_succ_right,
      or_comm]

end Step

theorem Sees.step (h : Sees classOf gs n s) (hbases : BasesApart gs) {g : Glyph α τ}
    (hg : gs[n]? = some g) : Sees classOf gs (n + 1) (s.step classOf (g, n)) := by
  have hat : ∀ base : InBase, (base = true → g.ruby = .base) → base = true →
      ∃ k, 0 < n + 1 ∧ gs[n + 1 - 1]? = some k ∧ k.ruby = .base :=
    fun base hbase hb => ⟨g, by omega, hg, hbase hb⟩
  rw [PairScan.step]
  by_cases hann : g.annotates = true
  · have hnone : classAt classOf gs n = none := classAt_of_annotates hg hann
    rw [if_pos hann]
    refine h.skip (hat false (by simp)) (not_significant_of_none hnone) fun hspace => ?_
    rw [SpaceAt, hnone] at hspace
    cases hspace
  · have hc : classAt classOf gs n = some (classOf g) := classAt_of_text hg (by simpa using hann)
    have hbase := hat (g.ruby == .base) (by simp)
    have hin : (g.ruby == .base && s.inBase) = false := by
      rw [Bool.and_eq_false_iff, beq_eq_false_iff_ne]
      by_contra hboth
      simp only [not_or, not_not, Bool.not_eq_false] at hboth
      obtain ⟨k, hpos, hk, hkbase⟩ := h.inBase hboth.2
      exact hbases.not_both hpos hk hg ⟨hkbase, hboth.1⟩
    rw [if_neg hann]
    dsimp only
    rw [hin, if_neg (by simp)]
    split_ifs with hsp hcm hatt
    · exact h.pause hbase (hc.trans (congrArg some hsp))
    · rw [hcm] at hc
      have hattached : Attached classOf gs n :=
        (h.attached_iff hc).mpr (by simpa using hatt)
      refine h.skip hbase (fun hsig => ?_) fun hspace => ?_
      · obtain ⟨_, _, _, hnot⟩ := significant_iff.mp hsig
        exact hnot hattached
      · cases hc.symm.trans hspace
    · rw [hcm] at hc
      have hn : Significant classOf gs n := significant_iff.mpr ⟨.CM, hc, by simp, fun hatt' =>
        hatt (by simpa using (h.attached_iff hc).mp hatt')⟩
      exact h.pass hbase hn hc
    · have hn : Significant classOf gs n := significant_iff.mpr ⟨classOf g, hc, hsp, fun hatt' =>
        hcm (Option.some.inj (hc.symm.trans hatt'.1))⟩
      have hcounted : (classOf g).counted = classOf g := if_neg hcm
      have hpass := h.pass hbase hn hc
      rwa [hcounted] at hpass

theorem sees_run (hbases : BasesApart gs) :
    Sees classOf gs gs.length (gs.zipIdx.foldl (PairScan.step classOf) .start) :=
  foldl_zipIdx_run (P := Sees classOf gs) sees_start fun _ _ _ hg h => h.step hbases hg

end PairScan

section Outcome

variable {classOf : Glyph α τ → BreakClass} {gs : List (Glyph α τ)}

theorem mem_pairMarks (hbases : BasesApart gs) (i : ℕ) (m : Split) :
    (i, m) ∈ pairMarks classOf gs ↔ ∃ q, Marked classOf gs q i m := by
  rw [pairMarks, (PairScan.sees_run hbases).marks]
  refine exists_congr fun q => and_iff_right_of_imp fun hmark => ?_
  by_contra hlen
  have hnone : classAt classOf gs q = none := by
    rw [classAt, List.getElem?_eq_none (by omega)]
    rfl
  exact not_significant_of_none hnone hmark.significant

/-- A glyph is marked in one way only, whichever glyph the mark comes from. -/
theorem Marked.split_unique {q r i : ℕ} {m n : Split} (hm : Marked classOf gs q i m)
    (hn : Marked classOf gs r i n) : m = n := by
  cases hm with
  | before meets _ =>
    cases hn with
    | before _ _ => rfl
    | replace _ _ space _ => exact absurd space.holds meets.significant.not_space
  | replace _ _ space _ =>
    cases hn with
    | before meets _ => exact absurd space.holds meets.significant.not_space
    | replace _ _ _ _ => rfl

theorem lookup_pairMarks (hbases : BasesApart gs) (i : ℕ) (m : Split) :
    (pairMarks classOf gs).lookup i = some m ↔ ∃ q, Marked classOf gs q i m := by
  constructor
  · intro h
    obtain ⟨l, l', hl, _⟩ := List.lookup_eq_some_iff.mp h
    have hmem : (i, m) ∈ pairMarks classOf gs := by simp [hl]
    exact (mem_pairMarks hbases i m).mp hmem
  · rintro ⟨q, hq⟩
    have hmem := (mem_pairMarks hbases i m).mpr ⟨q, hq⟩
    cases hl : (pairMarks classOf gs).lookup i with
    | none => simpa using List.lookup_eq_none_iff.mp hl _ hmem
    | some n =>
      obtain ⟨l, l', hl', _⟩ := List.lookup_eq_some_iff.mp hl
      have hmem' : (i, n) ∈ pairMarks classOf gs := by simp [hl']
      obtain ⟨r, hr⟩ := (mem_pairMarks hbases i n).mp hmem'
      rw [hr.split_unique hq]

theorem getElem?_markPairs (i : ℕ) : (markPairs classOf gs)[i]? =
    gs[i]?.map fun g => g.withMark ((pairMarks classOf gs).lookup i) := by
  simp [markPairs, List.getElem?_zipIdx, Function.comp_def]

/-- The split that the pair rules leave on the glyph `g` at position `i`. -/
structure RuledSplit (classOf : Glyph α τ → BreakClass) (gs : List (Glyph α τ)) (i : ℕ)
    (g : Glyph α τ) (split : Split) : Prop where
  annotation : g.annotates = true → split = g.split
  before_iff : g.annotates = false → (split = .before ↔ ∃ q, Marked classOf gs q i .before)
  replace_iff : g.annotates = false → (split = .replace ↔ ∃ q, Marked classOf gs q i .replace)
  unmarked : g.annotates = false → (∀ q m, ¬ Marked classOf gs q i m) →
    split = if g.split = .hang then .hang else .none

theorem ruledSplit_withMark (hbases : BasesApart gs) (i : ℕ) (g : Glyph α τ) :
    ∃ split, g.withMark ((pairMarks classOf gs).lookup i) = { g with split } ∧
      RuledSplit classOf gs i g split := by
  have hmarks : ∀ m, (pairMarks classOf gs).lookup i = some m ↔
      ∃ q, Marked classOf gs q i m := lookup_pairMarks hbases i
  unfold Glyph.withMark
  by_cases hann : g.annotates = true
  · rw [if_pos hann]
    exact ⟨g.split, rfl, fun _ => rfl, by simp [hann], by simp [hann], by simp [hann]⟩
  rw [if_neg hann]
  cases hl : (pairMarks classOf gs).lookup i with
  | none =>
    rw [hl] at hmarks
    have hno : ∀ m, ¬ ∃ q, Marked classOf gs q i m := fun m hm => by cases (hmarks m).mpr hm
    refine ⟨if g.split = .hang then .hang else .none, ?_, fun h => absurd h hann, fun _ => ?_,
      fun _ => ?_, fun _ _ => rfl⟩
    · dsimp only
      split_ifs with hhang
      · rw [← hhang]
      · rfl
    · exact iff_of_false (by split_ifs <;> simp) (hno .before)
    · exact iff_of_false (by split_ifs <;> simp) (hno .replace)
  | some m =>
    rw [hl] at hmarks
    refine ⟨m, rfl, fun h => absurd h hann, fun _ => ?_, fun _ => ?_, fun _ hno => ?_⟩
    · rw [← hmarks, Option.some.injEq]
    · rw [← hmarks, Option.some.injEq]
    · obtain ⟨q, hq⟩ := (hmarks m).mp rfl
      exact absurd hq (hno q m)

/-- The pair classifier marks exactly what the pair rules say. -/
theorem mark_pairs_ruled (table : ClassTable) (profile : Profile) (noIdeographs : Bool)
    {gs : List (Glyph α τ)} (hbases : BasesApart gs) :
    ((Classifier.pairs profile noIdeographs).mark table gs).length = gs.length ∧
      ∀ i g, gs[i]? = some g → ∃ split,
        ((Classifier.pairs profile noIdeographs).mark table gs)[i]? = some { g with split } ∧
          RuledSplit (glyphClass table profile noIdeographs) gs i g split := by
  refine ⟨(rebreaks_mark table _ gs).length_eq.symm, fun i g hg => ?_⟩
  have hruled : ∃ split, _ ∧ RuledSplit (glyphClass table profile noIdeographs) gs i g split :=
    ruledSplit_withMark hbases i g
  obtain ⟨split, hsplit, hruled⟩ := hruled
  refine ⟨split, ?_, hruled⟩
  rw [Classifier.mark, getElem?_markPairs, hg, Option.map_some, hsplit]

end Outcome

/-- A letter with a mark on it, a space, an annotation, a letter and an inline object. -/
def markedText : List (Glyph ℚ ℚ) :=
  [.ofCode 97 1, .ofCode 776 1, .ofCode 32 1, { (.ofCode 65 1 : Glyph ℚ ℚ) with ruby := .above },
    .ofCode 98 1, .object 1 1]

theorem mark_pairs_ruled_markedText :
    BasesApart markedText ∧
      (∃ q, Marked (glyphClass .default .western false) markedText q 2 .replace) ∧
      ∃ q, Marked (glyphClass .default .western false) markedText q 5 .before := by
  have hbases : BasesApart markedText := by
    unfold BasesApart
    decide
  obtain ⟨_, hruled⟩ := mark_pairs_ruled .default .western false hbases
  have hmarks : ((Classifier.pairs .western false).mark .default markedText).map Glyph.split =
      [.none, .none, .replace, .none, .none, .before] := by
    decide +kernel
  obtain ⟨space, hspace, hspaceRule⟩ := hruled 2 _ rfl
  obtain ⟨last, hlast, hlastRule⟩ := hruled 5 _ rfl
  have h2 := congrArg (·[2]?) hmarks
  have h5 := congrArg (·[5]?) hmarks
  simp only [List.getElem?_map, hspace, hlast] at h2 h5
  exact ⟨hbases, (hspaceRule.replace_iff rfl).mp (by simpa using h2),
    (hlastRule.before_iff rfl).mp (by simpa using h5)⟩

end Typeset
