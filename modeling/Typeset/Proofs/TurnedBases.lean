import Mathlib.Data.List.TakeWhile
import Typeset.Proofs.BaseRuns
import Typeset.Proofs.RightToLeft

/-!
# Readings in turned lines

Turning a line around takes every unit of it along as a whole, its annotations behind its base. So a
reading keeps its base, unless a glyph of another base comes to stand right before it: that one
joins the run.
-/

namespace Typeset

open Glyph

section Pieces

variable {β : Type}

/-- A position of a text lies in one of its pieces. -/
theorem exists_piece_at {pieces : List (List β)} {j : ℕ} (hj : j < pieces.flatten.length) :
    ∃ before piece behind, pieces = before ++ piece :: behind ∧ before.flatten.length ≤ j ∧
      j < before.flatten.length + piece.length := by
  induction pieces generalizing j with
  | nil => simp at hj
  | cons p pieces ih =>
    rw [List.flatten_cons, List.length_append] at hj
    rcases Nat.lt_or_ge j p.length with hlt | hge
    · exact ⟨[], p, pieces, rfl, Nat.zero_le j, by simpa using hlt⟩
    · obtain ⟨before, piece, behind, rfl, hle, hlt⟩ := ih (j := j - p.length) (by omega)
      refine ⟨p :: before, piece, behind, rfl, ?_, ?_⟩
      · rw [List.flatten_cons, List.length_append]
        omega
      · rw [List.flatten_cons, List.length_append]
        omega

theorem getElem?_append_mid (before behind : List β) {piece : List β} {j : ℕ}
    (hj : j < piece.length) : (before ++ (piece ++ behind))[before.length + j]? = piece[j]? := by
  rw [List.getElem?_append_right (Nat.le_add_right ..), Nat.add_sub_cancel_left,
    List.getElem?_append_left hj]

theorem getElem?_append_reverse (before behind : List β) {piece : List β} {j : ℕ}
    (hj : j < piece.length) :
    (before ++ (piece.reverse ++ behind))[before.length + (piece.length - 1 - j)]? =
      piece[j]? := by
  rw [getElem?_append_mid before behind (by rw [List.length_reverse]; omega),
    List.getElem?_reverse (by omega)]
  congr 1
  omega

end Pieces

variable {α τ : Type}

section Order

variable {gs : List (Glyph α τ)} {i j k m : ℕ}

/-- A text whose glyphs are numbered by their places. -/
def numbered (gs : List (Glyph α τ)) : List (Glyph α τ) :=
  gs.zipIdx.map fun gi => { gi.1 with index := gi.2 }

/-- The places from which the glyphs of the turned text come, in its order. -/
def turnOrder (gs : List (Glyph α τ)) : List ℕ :=
  (turnLines (numbered gs)).map fun g => g.index.toNat

/-- Turning the lines around takes the glyph at one place to another. -/
def TurnedTo (gs : List (Glyph α τ)) (i k : ℕ) : Prop := (turnOrder gs)[k]? = some i

instance (gs : List (Glyph α τ)) (i k : ℕ) : Decidable (TurnedTo gs i k) :=
  inferInstanceAs (Decidable ((turnOrder gs)[k]? = some i))

theorem map_index_numbered (gs : List (Glyph α τ)) :
    (numbered gs).map (fun g => g.index.toNat) = List.range gs.length := by
  rw [numbered, List.map_map]
  rw [List.range_eq_range', ← List.zipIdx_map_snd 0 gs]
  exact List.map_congr_left fun gi _ => Int.toNat_natCast gi.2

/-- A glyph without its number. -/
def Glyph.anonymous (g : Glyph α τ) : Glyph α τ := { g with index := 0 }

/-- A glyph as far as turning does not change it. -/
def Glyph.unturned (g : Glyph α τ) : Glyph α τ := { g with split := .none, rtl := false }

theorem map_anonymous_numbered (gs : List (Glyph α τ)) :
    (numbered gs).map anonymous = gs.map anonymous := by
  rw [numbered, List.map_map]
  conv_rhs => rw [← List.zipIdx_map_fst 0 gs, List.map_map]
  rfl

/-- Numbers neither tell how a text is turned nor are they written. -/
theorem map_anonymous_turnLines (gs : List (Glyph α τ)) :
    (turnLines (numbered gs)).map anonymous = (turnLines gs).map anonymous := by
  have hkeeps : KeepsOrder (anonymous : Glyph α τ → Glyph α τ) :=
    ⟨fun _ => rfl, fun _ _ => rfl, fun _ => rfl⟩
  rw [← turnLines_map hkeeps, map_anonymous_numbered, turnLines_map hkeeps]

theorem map_unturned_withLeadingSplit (split : Split) (gs : List (Glyph α τ)) :
    (withLeadingSplit split gs).map unturned = gs.map unturned := by
  cases gs <;> rfl

theorem map_unturned_turnBody (gs : List (Glyph α τ)) :
    (turnBody gs).map unturned = (turnUnits gs).map unturned := by
  have hrtl : ∀ l : List (Glyph α τ),
      (l.map fun g => { g with rtl := true }).map unturned = l.map unturned := by
    intro l
    rw [List.map_map]
    rfl
  have hruby : ∀ g : Glyph α τ, g.unturned.ruby = g.ruby := fun _ => rfl
  unfold turnBody
  dsimp only
  rw [hrtl]
  split_ifs
  · rw [map_unturned_withLeadingSplit, ← turnUnits_map hruby, map_unturned_withLeadingSplit,
      turnUnits_map hruby]
  · rfl

/-- The lines with their units in turned order, but for breaks and directions. -/
def turnedUnits (rows : List (List (Glyph α τ))) : List (Glyph α τ) :=
  rows.flatMap fun row => turnUnits (body row) ++ marker row

theorem map_unturned_turnLine (row : List (Glyph α τ)) :
    (turnLine row).map unturned = (turnUnits (body row) ++ marker row).map unturned := by
  rw [turnLine, List.map_append, List.map_append, map_unturned_turnBody]

theorem map_unturned_turnLines (gs : List (Glyph α τ)) :
    (turnLines gs).map unturned = (turnedUnits (lines gs)).map unturned := by
  simp only [turnLines, turnedUnits, List.map_flatMap, map_unturned_turnLine]

theorem turnUnits_body_perm (row : List (Glyph α τ)) :
    (turnUnits (body row) ++ marker row).Perm row := by
  have h := (turnUnits_perm (body row)).append_right (marker row)
  rwa [body_append_marker] at h

theorem turnedUnits_perm (gs : List (Glyph α τ)) : (turnedUnits (lines gs)).Perm gs := by
  have h : (turnedUnits (lines gs)).Perm ((lines gs).flatMap id) :=
    List.Perm.flatMap_left _ fun row _ => turnUnits_body_perm row
  rwa [List.flatMap_id, flatten_lines] at h

theorem turnOrder_eq {hs : List (Glyph α τ)}
    (h : (turnLines (numbered gs)).map unturned = hs.map unturned) :
    turnOrder gs = hs.map fun g => g.index.toNat := by
  have h' := congrArg (List.map fun g : Glyph α τ => g.index.toNat) h
  rwa [List.map_map, List.map_map] at h'

/-- Turning the lines around moves every glyph to one place. -/
theorem turnOrder_perm (gs : List (Glyph α τ)) : (turnOrder gs).Perm (List.range gs.length) := by
  rw [turnOrder_eq (map_unturned_turnLines _), ← map_index_numbered]
  exact (turnedUnits_perm _).map _

theorem TurnedTo.unique (h : TurnedTo gs i k) (h' : TurnedTo gs i m) : k = m := by
  have hnodup : (turnOrder gs).Nodup := (turnOrder_perm gs).nodup_iff.mpr List.nodup_range
  have hk := (List.getElem?_eq_some_iff.mp h).1
  exact (List.getElem?_inj hk hnodup).mp (h.trans h'.symm)

theorem TurnedTo.eq (h : TurnedTo gs i k) (h' : TurnedTo gs j k) : i = j :=
  Option.some.inj (h.symm.trans h')

end Order

section Units

variable {unit row : List (Glyph α τ)}

/-- What follows an annotation in its unit are annotations. -/
theorem annotates_of_unit {g : Glyph α τ} (hg : g.annotates = true)
    (h : (g :: unit).IsChain fun a b => sameUnit a b = true) :
    ∀ k ∈ g :: unit, k.annotates = true := by
  induction unit generalizing g with
  | nil => simpa using hg
  | cons k unit ih =>
    rw [List.isChain_cons_cons] at h
    have hk : k.annotates = true := by
      have hbase : g.ruby ≠ .base := fun hbase => by
        rw [annotates_of_base hbase] at hg
        cases hg
      simpa [sameUnit, hbase] using h.1
    rw [List.forall_mem_cons]
    exact ⟨hg, ih hk h.2⟩

/-- A unit is one glyph of text or a run of base glyphs, and annotations behind it. -/
theorem exists_text_of_unit (h : unit.IsChain fun a b => sameUnit a b = true) :
    ∃ text notes, unit = text ++ notes ∧ turnUnit unit = text.reverse ++ notes.reverse ∧
      (∀ g ∈ text, g.annotates = false) ∧ (∀ g ∈ notes, g.annotates = true) ∧
      (text.length ≤ 1 ∨ ∀ g ∈ text, g.ruby = .base) := by
  have htext : ∀ g ∈ unit.takeWhile fun g => !g.annotates, g.annotates = false := by
    intro g hg
    simpa using List.mem_takeWhile_imp hg
  refine ⟨_, _, List.takeWhile_append_dropWhile.symm, rfl, htext, ?_, ?_⟩
  · cases hnotes : unit.dropWhile fun g => !g.annotates with
    | nil => simp
    | cons g notes =>
      have hhead := List.head_dropWhile_not (fun g : Glyph α τ => !g.annotates)
        (hnotes ▸ List.cons_ne_nil g notes)
      simp only [hnotes, List.head_cons, Bool.not_eq_false'] at hhead
      exact annotates_of_unit hhead (hnotes ▸ h.suffix (List.dropWhile_suffix _))
  · refine or_iff_not_imp_left.mpr fun hlong => ?_
    rw [← @List.takeWhile_append_dropWhile _ (fun g => !g.annotates) unit,
      List.isChain_append] at h
    have hchain := h.1.imp_of_mem_imp
      (S := fun a b => a.ruby = .base ∧ b.ruby = .base) fun a b _ hb hab => by
        simpa [sameUnit, htext b hb] using hab
    rw [isChain_and_iff (fun g : Glyph α τ => g.ruby = .base) fun g => g.ruby = .base] at hchain
    generalize unit.takeWhile (fun g => !g.annotates) = text at hlong hchain
    rcases text with _ | ⟨a, _ | ⟨b, text⟩⟩
    · simp at hlong
    · simp at hlong
    · rw [List.forall_mem_cons]
      exact ⟨hchain.1 a (by simp), hchain.2⟩

/-- A unit stands between two parts of a text, and once the lines are turned around it stands between
two others, its text and its annotations each the other way around. -/
structure UnitTurns (gs l text notes r l' r' : List (Glyph α τ)) : Prop where
  eq : gs = l ++ (text ++ (notes ++ r))
  turned : (turnLines gs).map unturned =
    (l' ++ (text.reverse ++ (notes.reverse ++ r'))).map unturned
  unannotated : ∀ g ∈ text, g.annotates = false
  annotated : ∀ g ∈ notes, g.annotates = true
  single : text.length ≤ 1 ∨ ∀ g ∈ text, g.ruby = .base

/-- Every place of a line but its replaced glyph lies in a unit of it. -/
theorem exists_unitTurns {gs : List (Glyph α τ)} {line : Span} {i : ℕ}
    (hline : line ∈ lineSpans gs) (hstart : line.start ≤ i)
    (hi : i < line.start + (body (line.slice gs)).length) :
    ∃ l text notes r l' r', UnitTurns gs l text notes r l' r' ∧
      (line.start ≤ l.length ∧ l.length ≤ i ∧ i < l.length + text.length + notes.length) ∧
      (line.start < l.length → ∀ a b, gs[l.length - 1]? = some a → gs[l.length]? = some b →
        sameUnit a b = false) := by
  obtain ⟨before, row, behind, hlines, rfl⟩ := exists_line_of_mem_lineSpans hline
  rw [slice_of_lines_eq_append hlines] at hi
  dsimp only at hstart hi
  have hinside : i - before.flatten.length < ((body row).splitBy sameUnit).flatten.length := by
    rw [List.flatten_splitBy]
    omega
  obtain ⟨fore, unit, aft, hunits, hle, hlt⟩ := exists_piece_at hinside
  have hbody : body row = fore.flatten ++ (unit ++ aft.flatten) := by
    rw [← List.flatten_cons, ← List.flatten_append, ← hunits, List.flatten_splitBy]
  have hgs : gs = before.flatten ++ (row ++ behind.flatten) := by
    rw [← List.flatten_cons, ← List.flatten_append, ← hlines, flatten_lines]
  have hmem : unit ∈ (body row).splitBy sameUnit := by simp [hunits]
  obtain ⟨text, notes, hunit, hturn, htext, hnotes, hsingle⟩ :=
    exists_text_of_unit (List.isChain_of_mem_splitBy hmem)
  refine ⟨before.flatten ++ fore.flatten, text, notes, aft.flatten ++ (marker row ++ behind.flatten),
    turnedUnits before ++ aft.reverse.flatMap turnUnit,
    fore.reverse.flatMap turnUnit ++ (marker row ++ turnedUnits behind),
    ⟨?_, ?_, htext, hnotes, hsingle⟩, ?_, ?_⟩
  · conv_lhs => rw [hgs, ← body_append_marker row, hbody, hunit]
    simp only [List.append_assoc]
  · rw [map_unturned_turnLines, hlines]
    congr 1
    simp only [turnedUnits, turnUnits, hunits, hturn, List.flatMap_append, List.flatMap_cons,
      List.reverse_append, List.reverse_cons, List.flatMap_nil, List.append_nil, List.append_assoc]
  · rw [hunit, List.length_append] at hlt
    rw [List.length_append]
    dsimp only
    omega
  · intro hinner a b ha hb
    rw [List.length_append] at hinner ha hb
    dsimp only at hinner
    have hpos : 0 < unit.length := List.length_pos_iff.mpr (List.ne_nil_of_mem_splitBy hmem)
    have hfore : ∀ k, k < (body row).length → gs[before.flatten.length + k]? = (body row)[k]? := by
      intro k hk
      have hrow : row = body row ++ marker row := (body_append_marker row).symm
      rw [hgs, hrow, List.append_assoc, ← hrow, getElem?_append_mid _ _ hk]
    rw [hbody, List.length_append, List.length_append] at hfore
    rw [Nat.add_sub_assoc (by omega), hfore _ (by omega),
      List.getElem?_append_left (by omega)] at ha
    rw [hfore _ (by omega), List.getElem?_append_right le_rfl, Nat.sub_self] at hb
    refine splitBy_parts hunits ?_ ?_
    · rw [List.getLast?_eq_getElem?, ha]
    · rw [List.flatten_cons, List.head?_eq_getElem?, hb]

end Units

section Places

variable {gs : List (Glyph α τ)} {i j k m n p q : ℕ}

theorem map_ruby_numbered (gs : List (Glyph α τ)) : (numbered gs).map ruby = gs.map ruby := by
  have h := congrArg (List.map ruby) (map_anonymous_numbered gs)
  rwa [List.map_map, List.map_map] at h

theorem roleAt_numbered {role : RubyRole} : RoleAt (numbered gs) role i ↔ RoleAt gs role i :=
  roleAt_congr (by rw [map_ruby_numbered])

theorem annotationAt_numbered : AnnotationAt (numbered gs) i ↔ AnnotationAt gs i :=
  annotationAt_congr (by rw [map_ruby_numbered])

/-- A glyph as far as neither turning nor numbering changes it. -/
def Glyph.kept (g : Glyph α τ) : Glyph α τ := g.unturned.anonymous

theorem map_kept_turnLines_numbered (gs : List (Glyph α τ)) :
    (turnLines (numbered gs)).map kept = (turnLines gs).map kept := by
  have h := congrArg (List.map unturned) (map_anonymous_turnLines gs)
  rwa [List.map_map, List.map_map] at h

/-- A glyph is the same wherever it is turned to. -/
theorem TurnedTo.kept (h : TurnedTo gs i k) :
    ((turnLines gs).map kept)[k]? = (gs.map kept)[i]? := by
  rw [TurnedTo, turnOrder, List.getElem?_map, Option.map_eq_some_iff] at h
  obtain ⟨g, hg, rfl⟩ := h
  have hmem : g.unturned ∈ (turnedUnits (lines (numbered gs))).map unturned := by
    rw [← map_unturned_turnLines]
    exact List.mem_map_of_mem (List.mem_of_getElem? hg)
  obtain ⟨g', hg', hsame⟩ := List.mem_map.mp hmem
  obtain ⟨⟨g₀, i⟩, hgi, rfl⟩ := List.mem_map.mp ((turnedUnits_perm _).subset hg')
  have hindex : (i : ℤ) = g.index := congrArg index hsame
  have hkept := congrArg anonymous hsame
  change g₀.kept = g.kept at hkept
  rw [← map_kept_turnLines_numbered, List.getElem?_map, hg, ← hindex, Int.toNat_natCast,
    List.getElem?_map, List.mem_zipIdx_iff_getElem?.mp hgi, Option.map_some, Option.map_some, hkept]

theorem TurnedTo.role (h : TurnedTo gs i k) :
    ((turnLines gs).map ruby)[k]? = (gs.map ruby)[i]? := by
  have hkept := congrArg (Option.map ruby) h.kept
  rwa [← List.getElem?_map, ← List.getElem?_map, List.map_map, List.map_map] at hkept

/-- One plain glyph or `n` base glyphs stand at a place, and `m` annotations behind them. -/
structure UnitAt (gs : List (Glyph α τ)) (p n m : ℕ) : Prop where
  text : n = 1 ∧ PlainAt gs p ∨ ∀ j < n, BaseAt gs (p + j)
  notes : ∀ j < m, AnnotationAt gs (p + n + j)

theorem UnitAt.not_annotationAt (h : UnitAt gs p n m) (hj : j < n) :
    ¬ AnnotationAt gs (p + j) := by
  intro hann
  rcases h.text with ⟨rfl, hplain⟩ | hbase
  · obtain rfl : j = 0 := by omega
    exact hann.not_roleAt rfl hplain
  · exact hann.not_roleAt rfl (hbase j hj)

theorem UnitAt.baseAt (h : UnitAt gs p n m) (hbase : BaseAt gs p) (hi : p ≤ i)
    (hi' : i < p + n) : BaseAt gs i := by
  obtain ⟨d, rfl⟩ := Nat.exists_eq_add_of_le hi
  rcases h.text with ⟨rfl, _⟩ | hall
  · obtain rfl : d = 0 := by omega
    exact hbase
  · exact hall d (by omega)

/-- The text of a unit is the base of its annotations, if no base glyph stands right before it. -/
theorem UnitAt.isBaseOf (h : UnitAt gs p n m) (hn : 0 < n) (hj : j < m)
    (hleft : BaseAt gs p → 0 < p → ¬ BaseAt gs (p - 1)) :
    IsBaseOf gs (p + n + j) ⟨p, p + n⟩ := by
  refine ⟨Nat.le_add_right .., fun k hk hk' => ?_, ?_⟩
  · dsimp only at hk
    obtain ⟨d, rfl⟩ := Nat.exists_eq_add_of_le hk
    exact h.notes d (by omega)
  · refine h.text.imp (fun ⟨hone, hplain⟩ => ⟨hplain, by rw [hone]⟩) fun hbase => ?_
    refine ⟨Nat.lt_add_of_pos_right hn, fun i hi hi' => ?_, hleft (hbase 0 hn), ?_⟩
    · dsimp only at hi hi'
      obtain ⟨d, rfl⟩ := Nat.exists_eq_add_of_le hi
      exact hbase d (by omega)
    · exact (h.notes 0 (by omega)).not_roleAt rfl

/-- A base glyph right before a unit of base glyphs belongs to the base of its annotations. -/
theorem UnitAt.start_lt (h : UnitAt gs p n m) (hn : 0 < n) (hj : j < m) (hbase : BaseAt gs p)
    (hpos : 0 < p) (hleft : BaseAt gs (p - 1)) {t : Span} (ht : IsBaseOf gs (p + n + j) t) :
    t.start < p ∧ t.stop = p + n := by
  have hlt := ht.lt
  have hle := ht.le
  have hstop : t.stop = p + n := by
    rcases Nat.lt_trichotomy t.stop (p + n) with hbelow | heq | habove
    · exact absurd (h.baseAt hbase (i := p + n - 1) (by omega) (by omega))
        ((ht.annotated _ (by omega) (by omega)).not_roleAt rfl)
    · exact heq
    · obtain ⟨d, hd⟩ := Nat.exists_eq_add_of_le (show p + n ≤ t.stop - 1 by omega)
      exact absurd (hd ▸ h.notes d (by omega)) (ht.not_annotationAt (by omega) (by omega))
  refine ⟨not_le.mp fun hge => ?_, hstop⟩
  rcases ht.text with ⟨hplain, _⟩ | hrun
  · cases hplain.unique (h.baseAt hbase hge (by omega))
  · rcases hge.eq_or_lt with rfl | hgt
    · exact hrun.left hpos hleft
    · exact hrun.left (by omega) (h.baseAt hbase (by omega) (by omega))

/-- A unit moves from one place to another, its text and its annotations each turned around. -/
structure UnitMoves (gs : List (Glyph α τ)) (p q n m : ℕ) : Prop where
  unit : UnitAt gs p n m
  text : ∀ j < n, TurnedTo gs (p + j) (q + (n - 1 - j))
  notes : ∀ j < m, TurnedTo gs (p + n + j) (q + n + (m - 1 - j))

theorem UnitTurns.moves {l text notes r l' r' : List (Glyph α τ)}
    (h : UnitTurns (numbered gs) l text notes r l' r') :
    UnitMoves gs l.length l'.length text.length notes.length := by
  have horder := turnOrder_eq h.turned
  have hindex : ∀ i < gs.length, ((numbered gs)[i]?).map (fun g => g.index.toNat) = some i := by
    intro i hi
    rw [← List.getElem?_map, map_index_numbered, List.getElem?_range hi]
  have hlength : gs.length = l.length + (text.length + (notes.length + r.length)) := by
    have hlen := congrArg List.length h.eq
    rwa [numbered, List.length_map, List.length_zipIdx, List.length_append, List.length_append,
      List.length_append] at hlen
  have htext : ∀ j < text.length, (numbered gs)[l.length + j]? = text[j]? := fun j hj => by
    rw [h.eq, getElem?_append_mid _ _ hj]
  have hnotes : ∀ j < notes.length, (numbered gs)[l.length + text.length + j]? = notes[j]? :=
    fun j hj => by
      rw [h.eq, ← List.append_assoc, ← List.length_append, getElem?_append_mid _ _ hj]
  have hrole : ∀ j (hj : j < text.length), (numbered gs)[l.length + j]? = some text[j] :=
    fun j hj => by rw [htext j hj, List.getElem?_eq_getElem hj]
  refine ⟨⟨?_, fun j hj => ?_⟩, fun j hj => ?_, fun j hj => ?_⟩
  · simp only [BaseAt, PlainAt, ← @roleAt_numbered _ _ gs]
    rcases h.single with hone | hbase
    · rcases Nat.le_one_iff_eq_zero_or_eq_one.mp hone with hzero | hone
      · exact .inr fun j hj => absurd hj (by omega)
      · have hplain := h.unannotated text[0] (List.getElem_mem _)
        cases hruby : text[0].ruby with
        | plain => exact .inl ⟨hone, _, hrole 0 (by omega), hruby⟩
        | base =>
          refine .inr fun j hj => ?_
          obtain rfl : j = 0 := by omega
          exact ⟨_, hrole 0 hj, hruby⟩
        | above | below =>
          rw [annotates, hruby] at hplain
          cases hplain
    · exact .inr fun j hj => ⟨_, hrole j hj, hbase _ (List.getElem_mem hj)⟩
  · rw [← annotationAt_numbered]
    exact ⟨notes[j], by rw [hnotes j hj, List.getElem?_eq_getElem hj],
      h.annotated _ (List.getElem_mem hj)⟩
  · rw [TurnedTo, horder, List.getElem?_map, getElem?_append_reverse _ _ hj, ← htext j hj,
      hindex _ (by omega)]
  · have hlen : l'.length + text.length = (l' ++ text.reverse).length := by simp
    rw [TurnedTo, horder, List.getElem?_map, ← List.append_assoc, hlen,
      getElem?_append_reverse _ _ hj, ← hnotes j hj, hindex _ (by omega)]

theorem TurnedTo.roleAt_iff {role : RubyRole} (h : TurnedTo gs i k) :
    RoleAt (turnLines gs) role k ↔ RoleAt gs role i :=
  roleAt_congr h.role

theorem TurnedTo.annotationAt_iff (h : TurnedTo gs i k) :
    AnnotationAt (turnLines gs) k ↔ AnnotationAt gs i :=
  annotationAt_congr h.role

/-- Turned around, a unit is a unit. -/
theorem UnitMoves.turned (h : UnitMoves gs p q n m) : UnitAt (turnLines gs) q n m := by
  refine ⟨?_, fun j hj => ?_⟩
  · rcases h.unit.text with ⟨rfl, hplain⟩ | hbase
    · exact .inl ⟨rfl, (h.text 0 (by omega)).roleAt_iff.mpr hplain⟩
    · refine .inr fun j hj => ?_
      have hto := h.text (n - 1 - j) (by omega)
      rw [show n - 1 - (n - 1 - j) = j by omega] at hto
      exact hto.roleAt_iff.mpr (hbase _ (by omega))
  · have hto := h.notes (m - 1 - j) (by omega)
    rw [show m - 1 - (m - 1 - j) = j by omega] at hto
    exact hto.annotationAt_iff.mpr (h.unit.notes _ (by omega))

variable {line s : Span}

/-- An annotation of a line lies in a unit that leads with text, if the line leads with text. -/
theorem exists_unitMoves (hline : line ∈ lineSpans gs) (hlead : ¬ AnnotationAt gs line.start)
    (hstart : line.start ≤ i) (hi : i < line.start + (body (line.slice gs)).length)
    (hann : AnnotationAt gs i) :
    ∃ p q n m j, UnitMoves gs p q n m ∧ 0 < n ∧ j < m ∧ i = p + n + j ∧ line.start ≤ p ∧
      (line.start < p → BaseAt gs p → ¬ BaseAt gs (p - 1)) := by
  have hsplit : (numbered gs).map split = gs.map split := by
    have h := congrArg (List.map split) (map_anonymous_numbered gs)
    rwa [List.map_map, List.map_map] at h
  have hbody : (body (line.slice (numbered gs))).length = (body (line.slice gs)).length := by
    have hanonymous : ∀ hs : List (Glyph α τ), (body (line.slice hs)).length =
        (body (line.slice (hs.map anonymous))).length := fun hs => by
      rw [Span.slice_map, body_map (w := anonymous) fun _ => rfl, List.length_map]
    rw [hanonymous, map_anonymous_numbered, ← hanonymous]
  rw [← hbody] at hi
  have hline' : line ∈ lineSpans (numbered gs) := by
    rwa [lineSpans, map_length_lines_congr hsplit]
  obtain ⟨l, text, notes, r, l', r', hunit, ⟨hle, hli, hlt⟩, hparts⟩ :=
    exists_unitTurns hline' hstart hi
  have hmoves := hunit.moves
  have hapart : line.start < l.length →
      ¬ AnnotationAt gs l.length ∧ (BaseAt gs l.length → ¬ BaseAt gs (l.length - 1)) := by
    intro hinner
    rw [← annotationAt_numbered]
    simp only [BaseAt, ← @roleAt_numbered _ _ gs]
    constructor
    · rintro ⟨b, hb, hb'⟩
      have hlength := (List.getElem?_eq_some_iff.mp hb).1
      have hjoined := hparts hinner _ b (List.getElem?_eq_getElem (by omega)) hb
      simp [sameUnit, hb'] at hjoined
    · rintro ⟨b, hb, hb'⟩ ⟨a, ha, ha'⟩
      have hjoined := hparts hinner a b ha hb
      simp [sameUnit, ha', hb'] at hjoined
  have hpos : 0 < text.length := by
    by_contra hzero
    have hnote := hmoves.unit.notes 0 (by omega)
    rw [show l.length + text.length + 0 = l.length by omega] at hnote
    rcases hle.eq_or_lt with heq | hinner
    · exact hlead (heq ▸ hnote)
    · exact (hapart hinner).1 hnote
  have hbehind : l.length + text.length ≤ i := by
    by_contra hfront
    obtain ⟨d, rfl⟩ := Nat.exists_eq_add_of_le hli
    exact hmoves.unit.not_annotationAt (by omega) hann
  obtain ⟨j, rfl⟩ := Nat.exists_eq_add_of_le hbehind
  exact ⟨_, _, _, _, j, hmoves, hpos, by omega, rfl, hle, fun hinner => (hapart hinner).2⟩

end Places

section Bases

variable {gs : List (Glyph α τ)} {i k : ℕ} {line s : Span}

/-- The glyphs of the base of one annotation are turned to the glyphs of the base of another. -/
def SameBase (gs : List (Glyph α τ)) (i k : ℕ) : Prop :=
  ∃ s t, IsBaseOf gs i s ∧ IsBaseOf (turnLines gs) k t ∧
    ∀ j, (s.start ≤ j ∧ j < s.stop) ↔ ∃ m, t.start ≤ m ∧ m < t.stop ∧ TurnedTo gs j m

/-- A reading keeps its base when the lines are turned around, unless the base is a run of base
glyphs and the last of them, which then comes first, is turned to a place right behind a base
glyph. -/
theorem sameBase_turnLines_iff (hline : line ∈ lineSpans gs) (hlead : ¬ AnnotationAt gs line.start)
    (hstart : line.start ≤ i) (hi : i < line.start + (body (line.slice gs)).length)
    (hs : IsBaseOf gs i s) (hwhole : line.start ≤ s.start) :
    ∃ k, TurnedTo gs i k ∧ (SameBase gs i k ↔
      (BaseAt gs s.start → ∀ m, TurnedTo gs (s.stop - 1) (m + 1) → ¬ BaseAt (turnLines gs) m)) := by
  obtain ⟨p, q, n, m, j, hmoves, hn, hj, rfl, hle, hapart⟩ :=
    exists_unitMoves hline hlead hstart hi (hs.annotated i hs.le le_rfl)
  have hleft : BaseAt gs p → 0 < p → ¬ BaseAt gs (p - 1) := by
    intro hbase hpos hprev
    have hbefore := (hmoves.unit.start_lt hn hj hbase hpos hprev hs).1
    exact hapart (by omega) hbase hprev
  obtain rfl := hs.unique (hmoves.unit.isBaseOf hn hj hleft)
  have hfirst : TurnedTo gs (p + n - 1) q := by
    have hto := hmoves.text (n - 1) (by omega)
    rwa [Nat.sub_self, Nat.add_zero, ← Nat.add_sub_assoc hn] at hto
  refine ⟨_, hmoves.notes j hj, ?_, ?_⟩
  · rintro ⟨_, t, hs', ht, hsame⟩ hbase k hto hprev
    obtain rfl := hs'.unique hs
    obtain rfl : q = k + 1 := hfirst.unique hto
    have hlast := hmoves.unit.baseAt hbase (i := p + n - 1) (by omega) (by omega)
    obtain ⟨hbefore, hstop⟩ := hmoves.turned.start_lt hn (by omega)
      (hfirst.roleAt_iff.mpr hlast) (by omega) hprev ht
    -- the glyph that now stands before the base is one of its run, but comes from elsewhere
    have hfrom : TurnedTo gs _ k :=
      List.getElem?_eq_getElem (by have := (List.getElem?_eq_some_iff.mp hto).1; omega)
    obtain ⟨hge, hlt⟩ := (hsame _).mpr ⟨k, by omega, by omega, hfrom⟩
    obtain ⟨d, hd⟩ := Nat.exists_eq_add_of_le hge
    rw [hd] at hfrom hlt
    have := hfrom.unique (hmoves.text d (by dsimp only at hlt; omega))
    omega
  · intro hfree
    have hfree' : BaseAt (turnLines gs) q → 0 < q → ¬ BaseAt (turnLines gs) (q - 1) := by
      intro hbase hpos
      refine hfree ?_ (q - 1) (by rwa [Nat.sub_add_cancel hpos])
      rcases hmoves.unit.text with ⟨rfl, _⟩ | hall
      · exact hfirst.roleAt_iff.mp hbase
      · exact hall 0 hn
    refine ⟨_, _, hs, hmoves.turned.isBaseOf hn (by omega) hfree', fun i => ⟨?_, ?_⟩⟩
    · rintro ⟨hge, hlt⟩
      obtain ⟨d, rfl⟩ := Nat.exists_eq_add_of_le hge
      dsimp only at hlt
      exact ⟨_, Nat.le_add_right .., by dsimp only; omega, hmoves.text d (by omega)⟩
    · rintro ⟨k, hge, hlt, hto⟩
      obtain ⟨d, rfl⟩ := Nat.exists_eq_add_of_le hge
      dsimp only at hlt hto ⊢
      have hto' := hmoves.text (n - 1 - d) (by omega)
      rw [show n - 1 - (n - 1 - d) = d by omega] at hto'
      have := hto.eq hto'
      omega

/-- Two bases with their readings, and a space between them. -/
def twoReadings : List (Glyph ℚ ℚ) :=
  [{ (.ofCode 97 1 : Glyph ℚ ℚ) with ruby := .base },
    { (.ofCode 98 1 : Glyph ℚ ℚ) with ruby := .base },
    { (.ofCode 120 1 : Glyph ℚ ℚ) with ruby := .above }, .ofCode 32 1,
    { (.ofCode 99 1 : Glyph ℚ ℚ) with ruby := .base },
    { (.ofCode 121 1 : Glyph ℚ ℚ) with ruby := .above }]

theorem isBaseOf_twoReadings : IsBaseOf twoReadings 2 ⟨0, 2⟩ :=
  ⟨by decide, by decide +kernel,
    .inr ⟨by decide, by decide +kernel, by decide +kernel, by decide +kernel⟩⟩

theorem sameBase_twoReadings : IsBaseOf twoReadings 2 ⟨0, 2⟩ ∧ TurnedTo twoReadings 2 5 ∧
    SameBase twoReadings 2 5 := by
  have hline : ⟨0, 6⟩ ∈ lineSpans twoReadings := by decide +kernel
  obtain ⟨k, hto, hsame⟩ := sameBase_turnLines_iff hline (by decide +kernel) (by decide)
    (by decide +kernel) isBaseOf_twoReadings (by decide)
  have hto' : TurnedTo twoReadings 2 5 := by decide +kernel
  obtain rfl := hto.unique hto'
  refine ⟨isBaseOf_twoReadings, hto, hsame.mpr fun _ m hlast => ?_⟩
  obtain rfl : m = 2 := Nat.succ_injective (hlast.unique (by decide +kernel))
  decide +kernel

/-- A base with its reading, and a bare base right behind it. -/
def bareBehindReading : List (Glyph ℚ ℚ) :=
  [{ (.ofCode 97 1 : Glyph ℚ ℚ) with ruby := .base },
    { (.ofCode 120 1 : Glyph ℚ ℚ) with ruby := .above },
    { (.ofCode 98 1 : Glyph ℚ ℚ) with ruby := .base }]

/-- Turned around, the bare base joins the base of the reading. -/
theorem not_sameBase_bareBehindReading :
    ⟨0, 3⟩ ∈ lineSpans bareBehindReading ∧ ¬ AnnotationAt bareBehindReading 0 ∧
      AnnotationAt bareBehindReading 1 ∧ TurnedTo bareBehindReading 1 2 ∧
      ¬ SameBase bareBehindReading 1 2 := by
  refine ⟨by decide +kernel, by decide +kernel, by decide +kernel, by decide +kernel, ?_⟩
  have hs : IsBaseOf bareBehindReading 1 ⟨0, 1⟩ :=
    ⟨by decide, by decide +kernel,
      .inr ⟨by decide, by decide +kernel, by decide +kernel, by decide +kernel⟩⟩
  have ht : IsBaseOf (turnLines bareBehindReading) 2 ⟨0, 2⟩ :=
    ⟨by decide, by decide +kernel,
      .inr ⟨by decide, by decide +kernel, by decide +kernel, by decide +kernel⟩⟩
  rintro ⟨s, t, hs', ht', hsame⟩
  obtain rfl := hs'.unique hs
  obtain rfl := ht'.unique ht
  have hjoined := (hsame 2).mpr ⟨0, by decide, by decide, by decide +kernel⟩
  exact absurd hjoined.2 (by decide)

end Bases

end Typeset
