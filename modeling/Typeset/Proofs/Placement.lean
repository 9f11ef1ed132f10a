import Typeset.Proofs.KeptBreaks
import Typeset.Proofs.Paragraphs
import Typeset.Proofs.TurnedUnits

/-!
# Placing line by line

The cursor returns to the left edge where a break tells it to, and the lines are cut where a break
cuts them. The two readings differ at a break that an annotation carries, which the cursor passes
over, and at a break before the very first glyph, which cuts nothing. Neither is left by the breaker
or by turning lines around, so every line is placed as if it stood alone.
-/

namespace Typeset

open Glyph

variable {α τ : Type} [Scalar α]

section Rows

variable {edge x : α} {row gs : List (Glyph α τ)} {rows : List (List (Glyph α τ))}

omit [Scalar α] in
/-- A glyph that carries a break is text. -/
theorem Glyph.AnnotationsUnbroken.text (h : AnnotationsUnbroken gs) {g : Glyph α τ} (hg : g ∈ gs)
    (hsplit : g.split = .before ∨ g.split = .replace) : g.annotates = false := by
  by_contra hann
  obtain ⟨hbefore, hreplace⟩ := h g hg (by simpa using hann)
  exact hsplit.elim hbefore hreplace

end Rows

/-- Glyphs whose breaks move the cursor where they cut the lines: no annotation carries one, and the
first glyph is not led by one. -/
structure Placeable (gs : List (Glyph α τ)) : Prop where
  unbroken : AnnotationsUnbroken gs
  lead : leadsWithBreak gs = false

section Placing

variable {left first rest : α} {gs row : List (Glyph α τ)} {rows : List (List (Glyph α τ))}

end Placing

section Preparing

variable {gs hs row : List (Glyph α τ)} {table : ClassTable}

omit [Scalar α] in
theorem Glyph.AnnotationsUnbroken.rebreaks (h : AnnotationsUnbroken gs)
    (hrebreaks : List.Forall₂ Rebreaks gs hs) : AnnotationsUnbroken hs := by
  refine forall_mem_of_forall₂ hrebreaks ?_ h
  rintro g _ ⟨split, rfl, hkept⟩ hg hann
  rw [hkept hann]
  exact hg hann

omit [Scalar α] in
/-- A break that leads a turned line stands before text, as it did. -/
theorem annotationsUnbroken_turnLine (hjoined : row.IsChain fun a b => joins a b = true)
    (h : AnnotationsUnbroken row) : AnnotationsUnbroken (turnLine row) := by
  obtain ⟨hreplace, hbefore, hlead⟩ :=
    turnBody_breaks (fun _ => mem_body hjoined) fun _ => mem_tail_body hjoined
  intro g hg hann
  rcases List.mem_append.mp hg with hg | hg
  · refine ⟨fun hsplit => ?_, hreplace g hg⟩
    cases hturned : turnBody (body row) with
    | nil => simp [hturned] at hg
    | cons k rest =>
      rw [hturned] at hg hbefore hlead
      rcases List.mem_cons.mp hg with rfl | hg
      · -- the break stood before the first glyph of the line, which was text
        have htext : ∀ b ∈ (body row).head?, b.annotates = false := by
          intro b hb
          have hled : (b.split == .before) = true := by
            obtain ⟨l, hbody⟩ := List.head?_eq_some_iff.mp hb
            rw [hbody] at hlead
            exact hlead.symm.trans (beq_iff_eq.mpr hsplit)
          have hmem := (body_sublist row).subset (List.mem_of_mem_head? hb)
          exact h.text hmem (.inl (beq_iff_eq.mp hled))
        have hfirst := annotates_head_turnBody htext g (by simp [hturned])
        rw [hann] at hfirst
        cases hfirst
      · exact hbefore g hg hsplit
  · exact h g (body_append_marker row ▸ List.mem_append_right _ hg) hann

omit [Scalar α] in
theorem Placeable.turnLines (h : Placeable gs) : Placeable (turnLines gs) := by
  have hjoined : ∀ row ∈ lines gs, row.IsChain fun a b => joins a b = true :=
    fun row hrow => List.isChain_of_mem_splitBy hrow
  constructor
  · intro g hg
    obtain ⟨row, hrow, hgrow⟩ := List.mem_flatMap.mp hg
    refine annotationsUnbroken_turnLine (hjoined row hrow) (fun k hk => ?_) g hgrow
    exact h.unbroken k (mem_iff_exists_line.mpr ⟨row, hrow, hk⟩)
  · have hlead := h.lead
    rw [← flatten_lines gs] at hlead
    rw [Typeset.turnLines]
    cases hlines : lines gs with
    | nil => rfl
    | cons row rows =>
      have hmem : row ∈ lines gs := hlines ▸ List.mem_cons_self
      have hrow : row ≠ [] := List.ne_nil_of_mem_splitBy hmem
      have hturned : turnLine row ≠ [] := by
        rwa [← List.length_pos_iff, length_turnLine, List.length_pos_iff]
      rw [hlines, List.flatten_cons, leadsWithBreak_append hrow] at hlead
      rw [List.flatMap_cons, leadsWithBreak_append hturned,
        leadsWithBreak_turnLine (hjoined row hmem), hlead]

end Preparing

end Typeset
