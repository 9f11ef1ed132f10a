import Typeset.Proofs.Content
import Typeset.RightToLeft

/-!
# Turning lines keeps them

A line has no replaced glyph but its last and no break before a glyph but its first. Turning it
around keeps both ends, so a turned text has its lines where the text had them, and each turned line
holds the glyphs of its line in another order.
-/

namespace Typeset

theorem isChain_and_iff {β : Type} (p q : β → Prop) (l : List β) :
    (l.IsChain fun a b => p a ∧ q b) ↔ (∀ a ∈ l.dropLast, p a) ∧ ∀ b ∈ l.tail, q b := by
  induction l with
  | nil => simp
  | cons a l ih =>
    cases l with
    | nil => simp
    | cons b l =>
      rw [List.isChain_cons_cons, ih]
      simp only [List.dropLast_cons_cons, List.tail_cons, List.forall_mem_cons]
      tauto

variable {α τ : Type}

namespace Glyph

theorem joins_eq_false_iff (a b : Glyph α τ) :
    joins a b = false ↔ a.split = .replace ∨ b.split = .before := by
  cases ha : a.split <;> cases hb : b.split <;> simp [joins, ha, hb]

theorem isChain_joins_iff (row : List (Glyph α τ)) : (row.IsChain fun a b => joins a b = true) ↔
    (∀ g ∈ row.dropLast, g.split ≠ .replace) ∧ ∀ g ∈ row.tail, g.split ≠ .before := by
  rw [← isChain_and_iff (fun g : Glyph α τ => g.split ≠ .replace) fun g => g.split ≠ .before]
  simp [joins]

theorem endsReplaced_iff {row : List (Glyph α τ)} (h : row ≠ []) :
    endsReplaced row = true ↔ (row.getLast h).split = .replace := by
  rw [endsReplaced, List.getLast?_eq_some_getLast h]
  exact beq_iff_eq

theorem leadsWithBreak_iff {row : List (Glyph α τ)} (h : row ≠ []) :
    leadsWithBreak row = true ↔ (row.head h).split = .before := by
  cases row with
  | nil => exact absurd rfl h
  | cons g rest => exact beq_iff_eq

/-- Two lines come apart where the first ends replaced or a break leads the second. -/
theorem parts_iff (a b : List (Glyph α τ)) :
    (∃ ha hb, joins (a.getLast ha) (b.head hb) = false) ↔
      a ≠ [] ∧ b ≠ [] ∧ (endsReplaced a = true ∨ leadsWithBreak b = true) := by
  constructor
  · rintro ⟨ha, hb, hab⟩
    rw [joins_eq_false_iff, ← endsReplaced_iff ha, ← leadsWithBreak_iff hb] at hab
    exact ⟨ha, hb, hab⟩
  · rintro ⟨ha, hb, hab⟩
    refine ⟨ha, hb, ?_⟩
    rwa [joins_eq_false_iff, ← endsReplaced_iff ha, ← leadsWithBreak_iff hb]

theorem body_sublist (row : List (Glyph α τ)) : (body row).Sublist row := by
  conv_rhs => rw [← body_append_marker row]
  exact List.sublist_append_left _ _

theorem mem_body {row : List (Glyph α τ)} (h : row.IsChain fun a b => joins a b = true)
    {g : Glyph α τ} (hg : g ∈ body row) : g.split ≠ .replace := by
  have hchain := ((isChain_joins_iff row).mp h).1
  unfold body at hg
  split_ifs at hg with hends
  · exact hchain g hg
  · have hne : row ≠ [] := List.ne_nil_of_mem hg
    rw [← List.dropLast_append_getLast hne, List.mem_append, List.mem_singleton] at hg
    rcases hg with hg | rfl
    · exact hchain g hg
    · rwa [endsReplaced_iff hne] at hends

theorem mem_tail_body {row : List (Glyph α τ)} (h : row.IsChain fun a b => joins a b = true)
    {g : Glyph α τ} (hg : g ∈ (body row).tail) : g.split ≠ .before := by
  exact ((isChain_joins_iff row).mp h).2 g ((body_sublist row).tail.subset hg)

theorem mem_marker {row : List (Glyph α τ)} {g : Glyph α τ} (hg : g ∈ marker row) :
    endsReplaced row = true ∧ marker row = [g] ∧ g.split = .replace := by
  unfold marker at hg ⊢
  split_ifs at hg ⊢ with hends
  · have hne : row ≠ [] := by
      rintro rfl
      simp at hg
    rw [List.getLast?_eq_some_getLast hne, Option.toList_some, List.mem_singleton] at hg
    subst hg
    exact ⟨hends, by simp [List.getLast?_eq_some_getLast hne], (endsReplaced_iff hne).mp hends⟩
  · simp at hg

theorem exists_marker {row : List (Glyph α τ)} (h : endsReplaced row = true) :
    ∃ m ∈ row, marker row = [m] ∧ m.split = .replace := by
  have hne : row ≠ [] := by
    rintro rfl
    cases h
  refine ⟨row.getLast hne, List.getLast_mem hne, ?_, (endsReplaced_iff hne).mp h⟩
  rw [marker, if_pos h, List.getLast?_eq_some_getLast hne, Option.toList_some]

theorem leadsWithBreak_append {row : List (Glyph α τ)} (h : row ≠ []) (m : List (Glyph α τ)) :
    leadsWithBreak (row ++ m) = leadsWithBreak row := by
  obtain ⟨g, rest, rfl⟩ := List.exists_cons_of_ne_nil h
  rfl

/-- No break leads a line that is a replaced glyph only. -/
theorem leadsWithBreak_of_body_nil {row : List (Glyph α τ)} (h : body row = []) :
    leadsWithBreak row = false := by
  have hrow := body_append_marker row
  rw [h, List.nil_append] at hrow
  rw [← hrow]
  cases hmarker : marker row with
  | nil => rfl
  | cons m rest =>
    have hmem : m ∈ marker row := hmarker ▸ List.mem_cons_self
    obtain ⟨_, _, hsplit⟩ := mem_marker hmem
    rw [leadsWithBreak, hsplit]
    rfl

end Glyph

open Glyph

theorem turnUnit_perm (unit : List (Glyph α τ)) : (turnUnit unit).Perm unit := by
  have h := (List.reverse_perm (unit.takeWhile fun g => !g.annotates)).append
    (List.reverse_perm (unit.dropWhile fun g => !g.annotates))
  rwa [List.takeWhile_append_dropWhile] at h

theorem turnUnits_perm (gs : List (Glyph α τ)) : (turnUnits gs).Perm gs := by
  have hunits : (turnUnits gs).Perm ((gs.splitBy sameUnit).flatMap fun unit => unit) :=
    (List.reverse_perm _).flatMap fun unit _ => turnUnit_perm unit
  rwa [List.flatMap_id', List.flatten_splitBy] at hunits

@[simp] theorem tail_withLeadingSplit (split : Split) (gs : List (Glyph α τ)) :
    (withLeadingSplit split gs).tail = gs.tail := by
  cases gs <;> rfl

theorem mem_withLeadingSplit {split : Split} {gs : List (Glyph α τ)} {g : Glyph α τ}
    (h : g ∈ withLeadingSplit split gs) : g.split = split ∨ g ∈ gs.tail := by
  cases gs with
  | nil => simp [withLeadingSplit] at h
  | cons k gs =>
    rcases List.mem_cons.mp h with rfl | h
    · exact .inl rfl
    · exact .inr h

theorem withLeadingSplit_eq_nil {split : Split} {gs : List (Glyph α τ)} :
    withLeadingSplit split gs = [] ↔ gs = [] := by
  cases gs <;> simp [withLeadingSplit]

theorem leadsWithBreak_map_rtl (gs : List (Glyph α τ)) :
    leadsWithBreak (gs.map fun g => { g with rtl := true }) = leadsWithBreak gs := by
  cases gs <;> rfl

/-- A turned line without its replaced glyph: no break in it, and one before it as there was. -/
theorem turnBody_breaks {gs : List (Glyph α τ)} (hreplace : ∀ g ∈ gs, g.split ≠ .replace)
    (hbefore : ∀ g ∈ gs.tail, g.split ≠ .before) :
    (∀ g ∈ turnBody gs, g.split ≠ .replace) ∧ (∀ g ∈ (turnBody gs).tail, g.split ≠ .before) ∧
      leadsWithBreak (turnBody gs) = leadsWithBreak gs := by
  unfold turnBody
  dsimp only
  rw [leadsWithBreak_map_rtl, ← List.map_tail]
  simp only [List.forall_mem_map]
  by_cases hlead : leadsWithBreak gs = true
  · have hcleared : ∀ g ∈ turnUnits (withLeadingSplit .none gs),
        g.split ≠ .replace ∧ g.split ≠ .before := by
      intro g hg
      rcases mem_withLeadingSplit ((turnUnits_perm _).subset hg) with h | h
      · simp [h]
      · exact ⟨hreplace g (List.mem_of_mem_tail h), hbefore g h⟩
    rw [if_pos hlead, tail_withLeadingSplit]
    refine ⟨fun g hg => ?_, fun g hg => (hcleared g (List.mem_of_mem_tail hg)).2, ?_⟩
    · rcases mem_withLeadingSplit hg with h | h
      · simp [h]
      · exact (hcleared g (List.mem_of_mem_tail h)).1
    · have hgs : gs ≠ [] := by
        rintro rfl
        cases hlead
      have hturned : turnUnits (withLeadingSplit .none gs) ≠ [] := by
        intro hnil
        have hperm := turnUnits_perm (withLeadingSplit .none gs)
        rw [hnil, List.nil_perm, withLeadingSplit_eq_nil] at hperm
        exact hgs hperm
      rw [hlead]
      obtain ⟨g, rest, hcons⟩ := List.exists_cons_of_ne_nil hturned
      rw [hcons]
      rfl
  · have hplain : ∀ g ∈ turnUnits gs, g.split ≠ .replace ∧ g.split ≠ .before := by
      intro g hg
      have hmem := (turnUnits_perm gs).subset hg
      refine ⟨hreplace g hmem, ?_⟩
      cases gs with
      | nil => simp at hmem
      | cons k gs =>
        rcases List.mem_cons.mp hmem with rfl | hmem
        · rwa [leadsWithBreak_iff (by simp)] at hlead
        · exact hbefore g hmem
    rw [if_neg hlead]
    refine ⟨fun g hg => (hplain g hg).1, fun g hg => (hplain g (List.mem_of_mem_tail hg)).2, ?_⟩
    rw [Bool.not_eq_true] at hlead
    rw [hlead]
    cases hturned : turnUnits gs with
    | nil => rfl
    | cons g rest => exact beq_eq_false_iff_ne.mpr (hplain g (by simp [hturned])).2

theorem length_turnBody (gs : List (Glyph α τ)) : (turnBody gs).length = gs.length := by
  have hlen : ∀ (split : Split) (l : List (Glyph α τ)),
      (withLeadingSplit split l).length = l.length := by
    intro split l
    cases l <;> rfl
  unfold turnBody
  dsimp only
  rw [List.length_map]
  split_ifs
  · rw [hlen, (turnUnits_perm _).length_eq, hlen]
  · exact (turnUnits_perm gs).length_eq

theorem length_turnLine (row : List (Glyph α τ)) : (turnLine row).length = row.length := by
  have h := congrArg List.length (body_append_marker row)
  rwa [List.length_append, ← length_turnBody, ← List.length_append] at h

theorem turnLine_of_body_nil {row : List (Glyph α τ)} (h : body row = []) :
    turnLine row = row := by
  have hrow := body_append_marker row
  rw [h, List.nil_append] at hrow
  rw [turnLine, h, hrow]
  rfl

theorem isChain_turnLine {row : List (Glyph α τ)}
    (h : row.IsChain fun a b => joins a b = true) :
    (turnLine row).IsChain fun a b => joins a b = true := by
  by_cases hbody : body row = []
  · rwa [turnLine_of_body_nil hbody]
  · obtain ⟨hreplace, hbefore, _⟩ :=
      turnBody_breaks (fun _ => mem_body h) (fun _ => mem_tail_body h)
    have hne : turnBody (body row) ≠ [] := by
      rw [← List.length_pos_iff, length_turnBody]
      exact List.length_pos_iff.mpr hbody
    rw [isChain_joins_iff, turnLine, List.tail_append_of_ne_nil hne]
    constructor
    · intro g hg
      cases hmarker : marker row with
      | nil =>
        rw [hmarker, List.append_nil] at hg
        exact hreplace g (List.mem_of_mem_dropLast hg)
      | cons m rest =>
        have hmem : m ∈ marker row := by simp [hmarker]
        obtain ⟨_, hm, _⟩ := mem_marker hmem
        rw [hm, List.dropLast_concat] at hg
        exact hreplace g hg
    · intro g hg
      rcases List.mem_append.mp hg with hg | hg
      · exact hbefore g hg
      · simp [(mem_marker hg).2.2]

theorem leadsWithBreak_turnLine {row : List (Glyph α τ)}
    (h : row.IsChain fun a b => joins a b = true) :
    leadsWithBreak (turnLine row) = leadsWithBreak row := by
  by_cases hbody : body row = []
  · rw [turnLine_of_body_nil hbody]
  · have hne : turnBody (body row) ≠ [] := by
      rw [← List.length_pos_iff, length_turnBody]
      exact List.length_pos_iff.mpr hbody
    conv_rhs => rw [← body_append_marker row, leadsWithBreak_append hbody]
    rw [turnLine, leadsWithBreak_append hne]
    exact (turnBody_breaks (fun _ => mem_body h) fun _ => mem_tail_body h).2.2

theorem endsReplaced_turnLine {row : List (Glyph α τ)} (h : endsReplaced row = true) :
    endsReplaced (turnLine row) = true := by
  obtain ⟨m, _, hmarker, hsplit⟩ := exists_marker h
  rwa [turnLine, hmarker, endsReplaced_iff (by simp), List.getLast_concat]

theorem body_turnLine {row : List (Glyph α τ)} (h : row.IsChain fun a b => joins a b = true) :
    body (turnLine row) = turnBody (body row) := by
  by_cases hends : endsReplaced row = true
  · obtain ⟨m, _, hmarker, _⟩ := exists_marker hends
    rw [body, if_pos (endsReplaced_turnLine hends), turnLine, hmarker, List.dropLast_concat]
  · have hmarker : marker row = [] := by rw [marker, if_neg hends]
    have hturned : turnLine row = turnBody (body row) := by
      rw [turnLine, hmarker, List.append_nil]
    have hreplace := (turnBody_breaks (fun _ => mem_body h) fun _ => mem_tail_body h).1
    rw [hturned, body, if_neg]
    intro hback
    have hne : turnBody (body row) ≠ [] := by
      intro hnil
      rw [hnil] at hback
      cases hback
    exact hreplace _ (List.getLast_mem hne) ((endsReplaced_iff hne).mp hback)

/-- Turning every line around leaves the lines where they are. -/
theorem lines_turnLines (gs : List (Glyph α τ)) :
    lines (turnLines gs) = (lines gs).map turnLine := by
  have hchain : ∀ row ∈ lines gs, row.IsChain fun a b => joins a b = true :=
    fun row hrow => List.isChain_of_mem_splitBy hrow
  have hparts := List.isChain_getLast_head_splitBy joins gs
  refine List.splitBy_eq_iff.mpr ⟨List.flatMap_def, ?_, ?_, ?_⟩
  · intro hnil
    obtain ⟨row, hrow, hturned⟩ := List.mem_map.mp hnil
    have := length_pos_of_mem_lines hrow
    rw [← length_turnLine, hturned] at this
    exact absurd this (lt_irrefl 0)
  · intro turned hturned
    obtain ⟨row, hrow, rfl⟩ := List.mem_map.mp hturned
    exact isChain_turnLine (hchain row hrow)
  · rw [List.isChain_map]
    refine hparts.imp_of_mem_imp ?_
    intro a b ha hb hab
    have hne : ∀ row ∈ lines gs, turnLine row ≠ [] := fun row hrow => by
      rw [← List.length_pos_iff, length_turnLine]
      exact length_pos_of_mem_lines hrow
    obtain ⟨_, _, hab⟩ := (parts_iff a b).mp hab
    refine (parts_iff _ _).mpr ⟨hne a ha, hne b hb, ?_⟩
    rw [leadsWithBreak_turnLine (hchain b hb)]
    exact hab.imp_left endsReplaced_turnLine

section Maps

variable {w : Glyph α τ → Glyph α τ}

theorem turnUnits_map (hruby : ∀ g, (w g).ruby = g.ruby) (gs : List (Glyph α τ)) :
    turnUnits (gs.map w) = (turnUnits gs).map w := by
  have hann : ∀ g, (w g).annotates = g.annotates := fun g => by rw [annotates, hruby, annotates]
  have hunits : (gs.map w).splitBy sameUnit = (gs.splitBy sameUnit).map (List.map w) := by
    rw [← map_splitBy]
    simp only [sameUnit, hann, hruby]
    rfl
  have hturn : ∀ unit : List (Glyph α τ), turnUnit (unit.map w) = (turnUnit unit).map w := by
    intro unit
    simp only [turnUnit, List.takeWhile_map, List.dropWhile_map, List.map_append, List.map_reverse,
      Function.comp_def, hann]
  rw [turnUnits, hunits, ← List.map_reverse, List.flatMap_map, turnUnits, List.map_flatMap]
  simp only [hturn]

/-- A change of glyphs that turning lines around passes over. -/
structure KeepsOrder (w : Glyph α τ → Glyph α τ) : Prop where
  ruby : ∀ g, (w g).ruby = g.ruby
  resplit : ∀ g split, w { g with split } = { w g with split }
  turn : ∀ g, w { g with rtl := true } = { w g with rtl := true }

theorem KeepsOrder.split (h : KeepsOrder w) (g : Glyph α τ) : (w g).split = g.split := by
  have hsplit := congrArg Glyph.split (h.resplit g g.split)
  exact hsplit

theorem turnLines_map (h : KeepsOrder w) (gs : List (Glyph α τ)) :
    turnLines (gs.map w) = (turnLines gs).map w := by
  have hlead : ∀ (split : Split) (l : List (Glyph α τ)),
      withLeadingSplit split (l.map w) = (withLeadingSplit split l).map w := by
    intro split l
    cases l with
    | nil => rfl
    | cons g l => exact congrArg (· :: l.map w) (h.resplit g split).symm
  have hleads : ∀ l : List (Glyph α τ), leadsWithBreak (l.map w) = leadsWithBreak l := by
    intro l
    cases l with
    | nil => rfl
    | cons g l => simp only [List.map_cons, leadsWithBreak, h.split]
  have hbody : ∀ l : List (Glyph α τ), turnBody (l.map w) = (turnBody l).map w := by
    intro l
    unfold turnBody
    simp only [hlead, hleads, turnUnits_map h.ruby]
    split_ifs <;> simp only [List.map_map, Function.comp_def, h.turn]
  simp only [turnLines, lines_map h.split, List.flatMap_map, List.map_flatMap, turnLine,
    body_map h.split, marker_map h.split, hbody, List.map_append]

end Maps

variable [Scalar α]

/-- A list that holds the glyphs of another, in any order and with their content kept. -/
def Carries (gs hs : List (Glyph α τ)) : Prop :=
  ∃ order, order.Perm gs ∧ List.Forall₂ Keeps order hs

theorem Carries.trans {gs hs ks : List (Glyph α τ)} (h : Carries gs hs) (h' : Carries hs ks) :
    Carries gs ks := by
  obtain ⟨order, hperm, hkeeps⟩ := h
  obtain ⟨order', hperm', hkeeps'⟩ := h'
  have hcomp : Relation.Comp (List.Forall₂ Keeps) List.Perm order order' :=
    ⟨hs, hkeeps, hperm'.symm⟩
  rw [List.forall₂_comp_perm_eq_perm_comp_forall₂] at hcomp
  obtain ⟨order'', hperm'', hkeeps''⟩ := hcomp
  exact ⟨order'', hperm''.symm.trans hperm,
    forall₂_trans (R := Keeps) (fun _ _ _ => Keeps.trans) hkeeps'' hkeeps'⟩

theorem Carries.of_forall₂ {gs hs : List (Glyph α τ)} (h : List.Forall₂ Keeps gs hs) :
    Carries gs hs := ⟨gs, .refl gs, h⟩

theorem Carries.of_perm {gs hs : List (Glyph α τ)} (h : hs.Perm gs) : Carries gs hs :=
  ⟨hs, h, forall₂_refl Keeps.refl hs⟩

theorem Carries.append {gs hs gs' hs' : List (Glyph α τ)} (h : Carries gs hs)
    (h' : Carries gs' hs') : Carries (gs ++ gs') (hs ++ hs') := by
  obtain ⟨order, hperm, hkeeps⟩ := h
  obtain ⟨order', hperm', hkeeps'⟩ := h'
  exact ⟨order ++ order', hperm.append hperm', List.rel_append hkeeps hkeeps'⟩

theorem keeps_withLeadingSplit (split : Split) (gs : List (Glyph α τ)) :
    List.Forall₂ Keeps gs (withLeadingSplit split gs) := by
  cases gs with
  | nil => exact .nil
  | cons g gs => exact .cons (keeps_with ..) (forall₂_refl Keeps.refl gs)

theorem keeps_map_rtl (gs : List (Glyph α τ)) :
    List.Forall₂ Keeps gs (gs.map fun g => { g with rtl := true }) := by
  rw [List.forall₂_map_right_iff]
  exact List.forall₂_same.mpr fun g _ => keeps_with ..

theorem carries_turnBody (gs : List (Glyph α τ)) : Carries gs (turnBody gs) := by
  unfold turnBody
  dsimp only
  split_ifs
  · have hcleared := (Carries.of_forall₂ (keeps_withLeadingSplit .none gs)).trans
      (.of_perm (turnUnits_perm _))
    exact (hcleared.trans (.of_forall₂ (keeps_withLeadingSplit .before _))).trans
      (.of_forall₂ (keeps_map_rtl _))
  · exact (Carries.of_perm (turnUnits_perm gs)).trans (.of_forall₂ (keeps_map_rtl _))

theorem carries_turnLine (row : List (Glyph α τ)) : Carries row (turnLine row) := by
  have h := (carries_turnBody (body row)).append
    (Carries.of_forall₂ (forall₂_refl Keeps.refl (marker row)))
  rwa [body_append_marker] at h

end Typeset
