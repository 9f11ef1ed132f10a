import Typeset.Proofs.Blocks
import Typeset.Proofs.Boxes

/-!
# A point finds its link

Lines stand one below the other and the glyphs of a line side by side, so the areas of links never
overlap: a point of a glyph lies in no area but that of the run the glyph belongs to. Hence asking
for the link at the point gives the link of the glyph, which is the innermost one around its text.
-/

namespace Typeset

open Glyph

section Areas

variable {τ : Type} {l : Line ℚ τ} {g : Glyph ℚ τ} {run row gs : List (Glyph ℚ τ)} {x y : ℚ}

/-- Where only one piece has what is looked for, looking there is enough. -/
theorem find?_flatMap_of_only {β γ : Type} {f : β → List γ} {p : γ → Bool} {before behind : List β}
    {b : β} (h : ∀ c ∈ before ++ behind, ∀ a ∈ f c, ¬ p a = true) :
    ((before ++ b :: behind).flatMap f).find? p = (f b).find? p := by
  have hnone : ∀ m ⊆ before ++ behind, (m.flatMap f).find? p = none := by
    intro m hm
    rw [List.find?_eq_none]
    intro a ha
    obtain ⟨c, hc, hac⟩ := List.mem_flatMap.mp ha
    exact h c (hm hc) a hac
  rw [List.flatMap_append, List.flatMap_cons, List.find?_append, List.find?_append,
    hnone before (by simp), hnone behind (by simp), Option.none_or, Option.or_none]

theorem le_runLeft_iff {rest : List (Glyph ℚ τ)} {m : ℚ} :
    m ≤ runLeft g rest ↔ ∀ h ∈ g :: rest, m ≤ h.x := by
  rw [List.forall_mem_cons]
  apply foldl_iff (Q := (m ≤ ·))
  intro left h
  rw [Scalar.smaller_eq_min, le_min_iff]

theorem runRight_le_iff {rest : List (Glyph ℚ τ)} {m : ℚ} :
    runRight g rest ≤ m ↔ ∀ h ∈ g :: rest, h.x + h.width ≤ m := by
  rw [List.forall_mem_cons]
  apply foldl_iff (Q := (· ≤ m))
  intro right h
  rw [Scalar.larger_eq_max, max_le_iff]

/-- The area of a run is as wide as its glyphs and as high as its line. -/
structure LinkArea.Covers (a : LinkArea ℚ τ) (l : Line ℚ τ) (run : List (Glyph ℚ τ)) : Prop where
  top : a.y = l.top
  height : a.height = l.height
  left : ∀ m, m ≤ a.x ↔ ∀ g ∈ run, m ≤ g.x
  right : ∀ m, a.x + a.width ≤ m ↔ ∀ g ∈ run, g.x + g.width ≤ m

theorem LinkArea.contains_iff {a : LinkArea ℚ τ} : a.contains x y = true ↔
    a.x ≤ x ∧ x < a.x + a.width ∧ a.y ≤ y ∧ y < a.y + a.height := by
  simp [LinkArea.contains, and_assoc]

/-- A point of a line and a glyph on it lies in the area of a run that has the glyph. -/
theorem LinkArea.Covers.contains {a : LinkArea ℚ τ} (h : a.Covers l run) (hg : g ∈ run)
    (hx : g.x ≤ x) (hx' : x < g.x + g.width) (hy : l.top ≤ y) (hy' : y < l.bottom) :
    a.contains x y = true := by
  have hleft := (h.left a.x).mp le_rfl g hg
  have hright := (h.right _).mp le_rfl g hg
  rw [LinkArea.contains_iff, h.top, h.height]
  exact ⟨hleft.trans hx, hx'.trans_le hright, hy, hy'⟩

/-- A point of a glyph lies outside the area of a run on either side of it. -/
theorem LinkArea.Covers.beside {a : LinkArea ℚ τ} (h : a.Covers l run) (hx : g.x ≤ x)
    (hx' : x < g.x + g.width) (hrun : (∀ k ∈ run, Apart k g) ∨ ∀ k ∈ run, Apart g k) :
    ¬ a.contains x y = true := by
  rw [LinkArea.contains_iff]
  rintro ⟨hleft, hright, _⟩
  rcases hrun with hrun | hrun
  · exact absurd (((h.right g.x).mpr hrun).trans hx) (not_le.mpr hright)
  · exact absurd (((h.left _).mpr hrun).trans hleft) (not_le.mpr hx')

theorem filter_joined (hjoined : row.IsChain fun a b => joins a b = true) :
    row.filter (fun g => g.split != .replace) = body row := by
  have hbody : (body row).filter (fun g => g.split != .replace) = body row :=
    List.filter_eq_self.mpr fun g hg => bne_iff_ne.mpr (mem_body hjoined hg)
  have hmarker : (marker row).filter (fun g => g.split != .replace) = [] :=
    List.filter_eq_nil_iff.mpr fun g hg => by simp [(mem_marker hg).2.2]
  conv_lhs => rw [← body_append_marker row, List.filter_append, hbody, hmarker, List.append_nil]

variable [Scalar τ]

theorem covers_runArea {a : LinkArea ℚ τ} (h : runArea? l run = some a) : a.Covers l run := by
  cases run with
  | nil => cases h
  | cons g rest =>
    unfold runArea? at h
    dsimp only at h
    split_ifs at h
    obtain rfl := Option.some.inj h
    refine ⟨rfl, rfl, fun m => le_runLeft_iff, fun m => ?_⟩
    rw [add_sub_cancel]
    exact runRight_le_iff

/-- The area of a run has the link of its glyphs, which is none outside links. -/
theorem runArea_of_mem (hrun : run ∈ gs.splitBy sameLink) (hg : g ∈ run) :
    if g.link = 0 then runArea? l run = none
    else ∃ a, runArea? l run = some a ∧ a.id = g.link := by
  have hlink := eq_of_mem_splitBy (f := Glyph.link) (fun a b hab => by simpa [sameLink] using hab)
    hrun
  cases run with
  | nil => cases hg
  | cons k rest =>
    unfold runArea?
    dsimp only
    rw [hlink g hg k (by simp)]
    split_ifs
    · rfl
    · exact ⟨_, rfl, rfl⟩

/-- On its line, a point of a glyph lies in the area of its link and in no other. -/
theorem find_lineAreas (hjoined : row.IsChain fun a b => joins a b = true)
    (hapart : (body row).Pairwise Apart) (hg : g ∈ body row) (hx : g.x ≤ x)
    (hx' : x < g.x + g.width) (hy : l.top ≤ y) (hy' : y < l.bottom) :
    ((lineAreas l row).find? fun a => a.contains x y).map LinkArea.id =
      if g.link = 0 then none else some g.link := by
  unfold lineAreas
  rw [filter_joined hjoined, List.filterMap_eq_flatMap_toList]
  have hruns := List.flatten_splitBy sameLink (body row)
  rw [← hruns] at hg hapart
  obtain ⟨run, hrun, hgrun⟩ := List.mem_flatten.mp hg
  have harea := runArea_of_mem (l := l) hrun hgrun
  obtain ⟨before, behind, hsplit⟩ := List.append_of_mem hrun
  rw [hsplit, List.flatten_append, List.flatten_cons, List.pairwise_append,
    List.pairwise_append] at hapart
  obtain ⟨_, ⟨_, _, hright⟩, hleft⟩ := hapart
  have hbeside : ∀ c ∈ before ++ behind, ∀ a ∈ (runArea? l c).toList,
      ¬ a.contains x y = true := by
    intro c hc a ha
    apply (covers_runArea (Option.mem_toList.mp ha)).beside hx hx'
    rcases List.mem_append.mp hc with hc | hc
    · exact .inl fun k hk => hleft k (List.mem_flatten_of_mem hc hk) g (by simp [hgrun])
    · exact .inr fun k hk => hright g hgrun k (List.mem_flatten_of_mem hc hk)
  rw [hsplit, find?_flatMap_of_only hbeside]
  split_ifs at harea ⊢
  · rw [harea]
    rfl
  · obtain ⟨a, ha, hid⟩ := harea
    have hin := (covers_runArea ha).contains hgrun hx hx' hy hy'
    rw [ha, Option.toList_some, List.find?_singleton, if_pos hin, Option.map_some, hid]

/-- A point of a line lies in no area of another line. -/
theorem find_linkAreas {rows : List (Line ℚ τ)}
    (hrows : rows.Pairwise fun k l => k.bottom ≤ l.top) (hl : l ∈ rows) (hy : l.top ≤ y)
    (hy' : y < l.bottom) : ((linkAreas gs rows).find? fun a => a.contains x y) =
      (lineAreas l (l.span.slice gs)).find? fun a => a.contains x y := by
  obtain ⟨before, behind, rfl⟩ := List.append_of_mem hl
  rw [List.pairwise_append, List.pairwise_cons] at hrows
  obtain ⟨_, ⟨hbelow, _⟩, habove⟩ := hrows
  refine find?_flatMap_of_only fun k hk a ha => ?_
  obtain ⟨run, _, harea⟩ := List.mem_filterMap.mp ha
  have hcovers := covers_runArea harea
  rw [LinkArea.contains_iff, hcovers.top, hcovers.height]
  rintro ⟨_, _, hky, hky'⟩
  rcases List.mem_append.mp hk with hk | hk
  · exact absurd ((habove k hk l (by simp)).trans hy) (not_le.mpr hky')
  · exact absurd ((hbelow k hk).trans hky) (not_le.mpr hy')

end Areas

section Markup

open Markup

variable {τ : Type} {ts : List Token} {c : Char × ℕ} {g h : Glyph ℚ τ} {i : ℕ}

/-- No tag opens a base or an annotation. -/
def Unannotated (ts : List Token) : Prop := ∀ t ∈ ts, ∀ p ∈ openingTags, t.isTag p.1 = false

theorem role_of_unannotated (hts : Unannotated ts) {role : RubyRole} (h : PlaysAt ts i role) :
    role = .plain := by
  rcases h with ⟨j, _, name, hname, t, ht, htag⟩ | ⟨hrole, _⟩
  · rw [hts t (List.mem_of_getElem? ht) (name, role) hname] at htag
    cases htag
  · exact hrole

/-- A glyph of unannotated text that sets a character and has its link. -/
structure Shows (ts : List Token) (c : Char × ℕ) (g : Glyph ℚ τ) : Prop where
  cell : g.FillsCell
  code : g.code = c.1.toNat
  linkAt : LinkAt ts c.2 g.link

theorem Shows.keeps (hg : Shows ts c g) (hk : Keeps g h) : Shows ts c h where
  cell := hg.cell.keeps hk
  code := hk.code.trans hg.code
  linkAt := hk.link ▸ hg.linkAt

theorem shows_of_isSet [Scalar τ] {cell : Cell ℚ} (hts : Unannotated ts)
    (hadvance : 0 ≤ cell.advance) (h : IsSet cell ts c g) : Shows ts c g := by
  obtain ⟨role, link, rfl, hrole, hlink⟩ := h
  obtain rfl := role_of_unannotated hts hrole
  exact ⟨⟨rfl, rfl, rfl, hadvance⟩, rfl, hlink⟩

variable [Scalar τ]

/-- What the points of the glyph `g`, which sets the character `c` on the line `l`, find. -/
structure Layout.Finds (L : Layout ℚ τ) (ts : List Token) (l : Line ℚ τ) (c : Char × ℕ)
    (g : Glyph ℚ τ) : Prop where
  code : g.code = c.1.toNat
  linkAt : ∀ x y, g.x ≤ x → x < g.x + g.width → l.top ≤ y → y < l.top + l.height →
    L.linkAt? x y = if g.link = 0 then none else some g.link
  linked : g.link ≠ 0 ↔ ∃ j, InnermostLink ts c.2 j
  target : ∀ j, InnermostLink ts c.2 j →
    ∃ t, ts[j]? = some t ∧ L.target? g.link = some (tagValue t.text)

/-- The lines hold the whole text, and every glyph of a line, but for the one replaced by the break
at its end, sets the character in its place of the line, whose link its points find. -/
structure Layout.FindsLinks (L : Layout ℚ τ) (rtl : Bool) (ts : List Token) : Prop where
  tiles : Span.Tiles 0 (paragraphs ts).flatten.length (L.lines.map Line.span)
  length_eq : L.glyphs.length = (paragraphs ts).flatten.length
  finds : ∀ l ∈ L.lines, ∀ (i : ℕ) (g : Glyph ℚ τ), (body (l.span.slice L.glyphs))[i]? = some g →
    ∃ c, (turned rtl (body (l.span.slice L.glyphs)).length
      (l.span.slice (paragraphs ts).flatten))[i]? = some c ∧ L.Finds ts l c g

theorem linkNumber_le (ts : List Token) (j : ℕ) : linkNumber ts j ≤ ts.countP (Token.isTag "a") :=
  (List.take_sublist (j + 1) ts).countP_le

theorem layoutMarkup_eq (s : Style ℚ τ) (table : ClassTable) (startTime : τ) {cell : Cell ℚ}
    {text : String} {B : Blocks ℚ τ} (htokens : tokenize text = .ok ts)
    (hbuilt : buildBlocks cell ts = .ok B) : s.layoutMarkup table startTime cell text =
      .ok { s.layout table startTime B.blocks with targets := B.targets } := by
  unfold Style.layoutMarkup
  rw [htokens]
  change (buildBlocks cell ts >>= _) = _
  rw [hbuilt]
  rfl

/-- A point of any glyph that is not replaced by a break finds the link of the glyph, which leads to
the target of the innermost link around its text. -/
theorem Style.layoutMarkup_findsLinks {s : Style ℚ τ} {table : ClassTable} {startTime : τ}
    {cell : Cell ℚ} {text : String} {B : Blocks ℚ τ} (htokens : tokenize text = .ok ts)
    (hbuilt : buildBlocks cell ts = .ok B) (hlinks : ts.countP (Token.isTag "a") ≤ maxLink)
    (hruby : Unannotated ts) (hadvance : 0 < cell.advance) (hspacing : s.spacing.Nonneg)
    (hreach : s.KeepsInReach table B.blocks) :
    ∃ L, s.layoutMarkup table startTime cell text = .ok L ∧ L.FindsLinks s.rtl ts := by
  have hset : List.Forall₂ (List.Forall₂ (Shows ts)) (paragraphs ts) B.blocks :=
    (isSet_of_buildBlocks hbuilt).imp fun _ _ hblock =>
      hblock.imp fun _ _ hg => shows_of_isSet hruby hadvance.le hg
  have hrows := setRows_layout (R := Shows ts) (fun _ _ => Shows.cell) (fun _ _ _ => Shows.keeps)
    hset hreach startTime
  have hlen := (List.rel_flatten hset).length_eq
  have htiles := (setAt_layout s table startTime B.blocks).tiles
  rw [Nat.zero_add, ← hlen] at htiles
  refine ⟨_, layoutMarkup_eq s table startTime htokens hbuilt, htiles, hrows.length_eq.symm,
    fun l hl i g hg => ?_⟩
  have hrow := hrows.slice l.span (List.mem_map_of_mem hl)
  have hmem := List.mem_of_getElem? hg
  obtain ⟨c, hc, hshows⟩ : ∃ c, _ ∧ Shows ts c g := by
    apply exists_left_of_forall₂ hrow.order
    rw [← body_append_marker (l.span.slice _)]
    exact (List.getElem?_append_left (List.getElem?_eq_some_iff.mp hg).1).trans hg
  refine ⟨c, hc, hshows.code, ?_, hshows.linkAt.ne_zero_iff, ?_⟩
  · intro x y hx hx' hy hy'
    have hcells := forall_right_of_forall₂ hrow.order fun _ _ => Shows.cell
    have hapart := (pairwise_apart hrow.apart hcells).sublist (body_sublist _)
    have hlines := pairwise_lines hspacing table startTime B.blocks
    exact (congrArg _ (find_linkAreas hlines hl hy hy')).trans
      (find_lineAreas hrow.joined hapart hmem hx hx' hy hy')
  · intro j hj
    obtain ⟨hne, htarget⟩ := hshows.linkAt.target hj ((linkNumber_le ts j).trans hlinks)
    rwa [Layout.target?, if_neg hne, targets_of_buildBlocks hbuilt]

/-- Lines set from the right, in the middle of a text area. -/
def Style.centred : Style ℚ ℚ :=
  { Style.default.withAlign .center with rtl := true, alignWidth := 5 }

def nestedText : String := "\x7ba=x\x7dp\x7ba\x7dq\x7b/a\x7d\nr\x7b/a\x7ds"

theorem layoutMarkup_findsLinks_nestedLinks :
    ∃ L, Style.centred.layoutMarkup .default 0 unitCell nestedText = .ok L ∧
      L.FindsLinks true nestedLinks := by
  have htokens : tokenize nestedText = .ok nestedLinks := by
    cbv
  have hlinks : nestedLinks.countP (Token.isTag "a") ≤ maxLink := by
    decide
  have hruby : Unannotated nestedLinks := by
    unfold Unannotated
    decide
  have hreach : Style.centred.KeepsInReach .default linkedBlocks.blocks := by
    unfold Style.KeepsInReach Glyph.InReach
    decide +kernel
  exact Style.layoutMarkup_findsLinks htokens buildBlocks_nestedLinks hlinks hruby (by decide)
    ⟨by decide, by decide, by decide⟩ hreach

end Markup

end Typeset
