import Typeset.Proofs.Sweep
import Typeset.Proofs.Tags

/-!
# Glyphs in the scope of their tags

After some of the tokens the builder is in the part that the nearest ruby tag gives, holds the
numbers of the links still open, the innermost first, and has set every character read so far. A
closing tag stops it exactly if there is nothing to close.
-/

namespace Typeset.Markup

section Paragraphs

/-- The characters of the texts among numbered tokens, each with the number of its token. -/
def textOf (ps : List (Token × ℕ)) : List (Char × ℕ) :=
  ps.flatMap fun p => if p.1.kind = .text then p.1.text.toList.map fun c => (c, p.2) else []

def endsParagraph (p : Token × ℕ) : Bool := p.1.kind == .paragraph

/-- The characters of each paragraph, with the numbers of their tokens. -/
def paragraphs (ts : List Token) : List (List (Char × ℕ)) :=
  (ts.zipIdx.splitOnP endsParagraph).map textOf

theorem textOf_append (ps qs : List (Token × ℕ)) : textOf (ps ++ qs) = textOf ps ++ textOf qs :=
  List.flatMap_append

theorem textOf_text {t : Token} (h : t.kind = .text) (n : ℕ) :
    textOf [(t, n)] = t.text.toList.map fun c => (c, n) := by
  simp [textOf, h]

theorem textOf_of_ne {t : Token} (h : t.kind ≠ .text) (n : ℕ) : textOf [(t, n)] = [] := by
  simp [textOf, h]

/-- An element that does not separate goes to the last piece. -/
theorem exists_splitOnP_concat {β : Type} {p : β → Bool} {a : β} (ha : p a = false)
    (l : List β) : ∃ pieces last, l.splitOnP p = pieces ++ [last] ∧
      (l ++ [a]).splitOnP p = pieces ++ [last ++ [a]] := by
  induction l with
  | nil => exact ⟨[], [], rfl, by simp [List.splitOnP_cons_eq_if_modifyHead, ha]⟩
  | cons b l ih =>
    obtain ⟨pieces, last, h, h'⟩ := ih
    simp only [List.cons_append, List.splitOnP_cons_eq_if_modifyHead, h, h']
    split_ifs with hb
    · exact ⟨[] :: pieces, last, rfl, rfl⟩
    · cases pieces with
      | nil => exact ⟨[], b :: last, rfl, rfl⟩
      | cons q pieces => exact ⟨(b :: q) :: pieces, last, rfl, rfl⟩

theorem splitOnP_concat {β : Type} {p : β → Bool} {a : β} (ha : p a = false) {l : List β}
    {pieces : List (List β)} {last : List β} (h : l.splitOnP p = pieces ++ [last]) :
    (l ++ [a]).splitOnP p = pieces ++ [last ++ [a]] := by
  obtain ⟨pieces', last', h', hconcat⟩ := exists_splitOnP_concat ha l
  rw [h] at h'
  obtain ⟨rfl, hlast⟩ := List.append_inj' h' rfl
  obtain rfl := List.singleton_inj.mp hlast
  exact hconcat

theorem numbered_succ {ts : List Token} {t : Token} {n : ℕ} (ht : ts[n]? = some t) :
    (ts.take (n + 1)).zipIdx = (ts.take n).zipIdx ++ [(t, n)] := by
  have hlen := (List.getElem?_eq_some_iff.mp ht).1
  rw [List.take_add_one, ht, Option.toList_some, List.zipIdx_append, List.length_take,
    Nat.min_eq_left hlen.le, Nat.zero_add]
  rfl

end Paragraphs

section Numbers

variable {ts : List Token} {t : Token} {p : Token → Bool} {i j n : ℕ}

theorem countP_take_succ (ht : ts[n]? = some t) :
    (ts.take (n + 1)).countP p = (ts.take n).countP p + if p t then 1 else 0 := by
  rw [List.take_add_one, ht, Option.toList_some, List.countP_append, List.countP_singleton]

/-- What stands at a place comes behind as many chosen elements as stand before the place. -/
theorem getElem?_filter_countP {β : Type} {p : β → Bool} {l : List β} {i : ℕ} {a : β}
    (ha : l[i]? = some a) (hp : p a = true) : (l.filter p)[(l.take i).countP p]? = some a := by
  have hl : l = l.take i ++ a :: l.drop (i + 1) := by
    obtain ⟨hlt, rfl⟩ := List.getElem?_eq_some_iff.mp ha
    rw [List.getElem_cons_drop, List.take_append_drop]
  have hfilter : l.filter p = (l.take i).filter p ++ a :: (l.drop (i + 1)).filter p := by
    conv_lhs => rw [hl, List.filter_append, List.filter_cons_of_pos hp]
  rw [hfilter, List.countP_eq_length_filter, List.getElem?_append_right le_rfl, Nat.sub_self]
  rfl

theorem linkNumber_eq (h : TagAt ts "a" j) :
    linkNumber ts j = (ts.take j).countP (Token.isTag "a") + 1 := by
  obtain ⟨t, ht, htag⟩ := h
  rw [linkNumber, countP_take_succ ht, if_pos htag]

theorem linkNumber_lt (h : TagAt ts "a" j) (hij : i < j) : linkNumber ts i < linkNumber ts j := by
  have hle : linkNumber ts i ≤ (ts.take j).countP (Token.isTag "a") :=
    (List.take_sublist_take_left hij).countP_le
  rw [linkNumber_eq h]
  omega

theorem linkNumber_inj (hi : TagAt ts "a" i) (hj : TagAt ts "a" j)
    (h : linkNumber ts i = linkNumber ts j) : i = j := by
  rcases Nat.lt_trichotomy i j with hlt | heq | hgt
  · exact absurd h (linkNumber_lt hj hlt).ne
  · exact heq
  · exact absurd h.symm (linkNumber_lt hi hgt).ne

theorem LinkAt.eq_number {link : ℕ} (h : LinkAt ts i link) (hj : InnermostLink ts i j) :
    link = min (linkNumber ts j) maxLink := by
  rcases h with ⟨_, hnone⟩ | ⟨k, hk, hlink⟩
  · exact absurd hj.holds (hnone j hj.lt)
  · rw [hlink, hj.unique hk]

theorem LinkAt.ne_zero_iff {link : ℕ} (h : LinkAt ts i link) :
    link ≠ 0 ↔ ∃ j, InnermostLink ts i j := by
  rcases h with ⟨rfl, hnone⟩ | ⟨j, hj, rfl⟩
  · exact ⟨fun hne => absurd rfl hne, fun ⟨j, hj⟩ => absurd hj.holds (hnone j hj.lt)⟩
  · rw [linkNumber_eq hj.holds.1]
    exact ⟨fun _ => ⟨j, hj⟩, fun _ => by simp [maxLink]⟩

/-- Below the bound, texts carry one number exactly if they stand in one link. -/
theorem LinkAt.eq_iff {i' link link' : ℕ} (h : LinkAt ts i link) (h' : LinkAt ts i' link')
    (hne : link ≠ 0) (hne' : link' ≠ 0) (hlt : link < maxLink ∨ link' < maxLink) :
    link = link' ↔ ∃ j, InnermostLink ts i j ∧ InnermostLink ts i' j := by
  constructor
  · rintro rfl
    obtain ⟨j, hj, hnumber⟩ := h.resolve_left fun hzero => hne hzero.1
    obtain ⟨k, hk, hnumber'⟩ := h'.resolve_left fun hzero => hne hzero.1
    have hjk : j = k := linkNumber_inj hj.holds.1 hk.holds.1 (by omega)
    exact ⟨j, hj, hjk ▸ hk⟩
  · rintro ⟨j, hj, hj'⟩
    rw [h.eq_number hj, h'.eq_number hj']

/-- The number of a link finds the value of its tag. -/
theorem LinkAt.target {link : ℕ} (h : LinkAt ts i link) (hj : InnermostLink ts i j)
    (hle : linkNumber ts j ≤ maxLink) : link ≠ 0 ∧ ∃ t, ts[j]? = some t ∧
      ((ts.filter (Token.isTag "a")).map (tagValue ·.text))[link - 1]? =
        some (tagValue t.text) := by
  have hlink : link = (ts.take j).countP (Token.isTag "a") + 1 := by
    rw [h.eq_number hj, Nat.min_eq_left hle, linkNumber_eq hj.holds.1]
  obtain ⟨t, ht, htag⟩ := hj.holds.1
  refine ⟨by omega, t, ht, ?_⟩
  rw [hlink, Nat.add_sub_cancel, List.getElem?_map, getElem?_filter_countP ht htag, Option.map_some]

end Numbers

section Set

/-- The glyph of a character, in the part and the link that the tags before its token give. -/
def IsSet {α τ : Type} [Scalar α] [Scalar τ] (cell : Cell α) (ts : List Token) (c : Char × ℕ)
    (g : Glyph α τ) : Prop :=
  ∃ role link, g = { (cell.glyph c.1 : Glyph α τ) with ruby := role, link } ∧
    PlaysAt ts c.2 role ∧ LinkAt ts c.2 link

theorem IsSet.linkAt {α τ : Type} [Scalar α] [Scalar τ] {cell : Cell α} {ts : List Token}
    {c : Char × ℕ} {g : Glyph α τ} (h : IsSet cell ts c g) : LinkAt ts c.2 g.link := by
  obtain ⟨_, _, rfl, _, hlink⟩ := h
  exact hlink

/-- The fault at the first tag that has nothing to close. -/
structure FirstStray (ts : List Token) (i : ℕ) (e : Fault) : Prop where
  stray : Stray ts i
  first : ∀ j < i, ¬ Stray ts j
  fault : ∃ t, ts[i]? = some t ∧ e = .unbalancedTag (tagName t.text)

theorem Stray.lt_length {ts : List Token} {i : ℕ} (h : Stray ts i) : i < ts.length := by
  have htag : ∃ name, TagAt ts name i := by
    rcases h with ⟨_, ⟨name, _, h⟩, _⟩ | ⟨h, _⟩
    · exact ⟨name, h⟩
    · exact ⟨_, h⟩
  obtain ⟨_, t, ht, _⟩ := htag
  exact (List.getElem?_eq_some_iff.mp ht).1

end Set

namespace Builder

section Tags

variable {α τ : Type} {ts : List Token} {n : ℕ} {b : Builder α τ} {t : Token}

/-- What the builder knows of the tags before token `n`, none of which closes what is not open. -/
structure Knows (ts : List Token) (n : ℕ) (b : Builder α τ) : Prop where
  sound : ∀ i < n, ¬ Stray ts i
  role : PlaysAt ts n b.role
  links : ∃ links, OpenLinks ts n links ∧
    b.openLinks = links.map fun j => min (linkNumber ts j) maxLink
  balance : (ts.take n).countP (Token.isTag "a") =
    (ts.take n).countP (Token.isTag "/a") + b.openLinks.length
  linkCount : b.linkCount = (ts.take n).countP (Token.isTag "a")
  targets : b.targets.reverse =
    ((ts.take n).filter (Token.isTag "a")).map fun t => tagValue t.text

theorem knows_start : Knows ts 0 (start : Builder α τ) where
  sound i hi := absurd hi (Nat.not_lt_zero i)
  role := playsAt_zero
  links := ⟨[], openLinks_zero, rfl⟩
  balance := rfl
  linkCount := rfl
  targets := rfl

theorem Knows.linkAt (h : Knows ts n b) : LinkAt ts n (b.openLinks.head?.getD 0) := by
  obtain ⟨links, hlinks, hb⟩ := h.links
  rw [hb]
  cases links with
  | nil => exact .inl ⟨rfl, fun j hj hopen => by simpa using (hlinks.mem_iff j).mpr ⟨hj, hopen⟩⟩
  | cons j links => exact .inr ⟨j, hlinks.innermost_iff.mpr rfl, rfl⟩

theorem countP_take_succ_of_not {name : String} (ht : ts[n]? = some t) (h : ¬ TagAt ts name n) :
    (ts.take (n + 1)).countP (Token.isTag name) = (ts.take n).countP (Token.isTag name) := by
  rw [countP_take_succ ht, if_neg ((tagAt_iff ht).not.mp h), Nat.add_zero]

theorem filter_take_succ {p : Token → Bool} (ht : ts[n]? = some t) :
    (ts.take (n + 1)).filter p = (ts.take n).filter p ++ if p t then [t] else [] := by
  rw [List.take_add_one, ht, Option.toList_some, List.filter_append, List.filter_singleton,
    Bool.cond_eq_ite]

theorem not_stray (hruby : ∀ role, ClosesRuby ts role n → InRuby ts n role)
    (hlink : ¬ TagAt ts "/a" n) : ¬ Stray ts n := by
  rintro (⟨role, hclose, hnot⟩ | ⟨hclose, _⟩)
  · exact hnot (hruby role hclose)
  · exact hlink hclose

variable (h : Knows ts n b) (ht : ts[n]? = some t)

include h ht

/-- Past a token that neither opens nor closes a link. -/
theorem Knows.unlinked (hstray : ¬ Stray ts n) (hopen : ¬ TagAt ts "a" n)
    (hclose : ¬ TagAt ts "/a" n) {role : RubyRole} (hrole : PlaysAt ts (n + 1) role)
    (blocks : List (List (Glyph α τ))) (block : List (Glyph α τ)) :
    Knows ts (n + 1) { b with role, blocks, block } where
  sound := Nat.forall_lt_succ_right.mpr ⟨h.sound, hstray⟩
  role := hrole
  links := by
    obtain ⟨links, hlinks, hb⟩ := h.links
    exact ⟨links, hlinks.pass hopen hclose, hb⟩
  balance := by
    rw [countP_take_succ_of_not ht hopen, countP_take_succ_of_not ht hclose]
    exact h.balance
  linkCount := by
    rw [countP_take_succ_of_not ht hopen]
    exact h.linkCount
  targets := by
    rw [filter_take_succ ht, if_neg ((tagAt_iff ht).not.mp hopen), List.append_nil]
    exact h.targets

theorem Knows.openLink (hruby : ¬ RubyTagAt ts n) (hopen : TagAt ts "a" n)
    (hclose : ¬ TagAt ts "/a" n) :
    Knows ts (n + 1)
      { b with
        targets := tagValue t.text :: b.targets
        linkCount := b.linkCount + 1
        openLinks := min (b.linkCount + 1) maxLink :: b.openLinks } where
  sound := Nat.forall_lt_succ_right.mpr
    ⟨h.sound, not_stray (fun role hc => absurd ⟨role, .inr hc⟩ hruby) hclose⟩
  role := (playsAt_succ_iff hruby).mpr h.role
  links := by
    obtain ⟨links, hlinks, hb⟩ := h.links
    refine ⟨n :: links, hlinks.push hopen hclose, ?_⟩
    rw [hb, List.map_cons, linkNumber_eq hopen, h.linkCount]
  balance := by
    rw [countP_take_succ ht, countP_take_succ_of_not ht hclose, if_pos ((tagAt_iff ht).mp hopen),
      h.balance, List.length_cons, Nat.add_assoc]
  linkCount := by
    rw [countP_take_succ ht, if_pos ((tagAt_iff ht).mp hopen), h.linkCount]
  targets := by
    rw [filter_take_succ ht, if_pos ((tagAt_iff ht).mp hopen), List.map_append, ← h.targets,
      List.reverse_cons]
    rfl

theorem Knows.closeLink (hruby : ¬ RubyTagAt ts n) (hopen : ¬ TagAt ts "a" n)
    (hclose : TagAt ts "/a" n) {link : ℕ} {rest : List ℕ} (hb : b.openLinks = link :: rest) :
    Knows ts (n + 1) { b with openLinks := rest } where
  sound := by
    refine Nat.forall_lt_succ_right.mpr ⟨h.sound, ?_⟩
    rintro (⟨role, hc, _⟩ | ⟨_, hle⟩)
    · exact hruby ⟨role, .inr hc⟩
    · have hbalance := h.balance
      rw [hb, List.length_cons] at hbalance
      omega
  role := (playsAt_succ_iff hruby).mpr h.role
  links := by
    obtain ⟨links, hlinks, hmap⟩ := h.links
    rw [hb] at hmap
    obtain ⟨i, links, rfl, _, rfl⟩ := List.map_eq_cons_iff.mp hmap.symm
    exact ⟨links, hlinks.pop hopen hclose, rfl⟩
  balance := by
    have hbalance := h.balance
    rw [hb, List.length_cons] at hbalance
    rw [countP_take_succ_of_not ht hopen, countP_take_succ ht, if_pos ((tagAt_iff ht).mp hclose),
      hbalance]
    dsimp only
    omega
  linkCount := by
    rw [countP_take_succ_of_not ht hopen]
    exact h.linkCount
  targets := by
    rw [filter_take_succ ht, if_neg ((tagAt_iff ht).not.mp hopen), List.append_nil]
    exact h.targets

end Tags

section Texts

variable {α τ : Type} [Scalar α] [Scalar τ] {cell : Cell α} {ts : List Token} {n : ℕ}
  {b : Builder α τ} {t : Token}

/-- The builder has set the texts before token `n`. -/
def HasSet (cell : Cell α) (ts : List Token) (n : ℕ) (b : Builder α τ) : Prop :=
  ∃ pieces last, (ts.take n).zipIdx.splitOnP endsParagraph = pieces ++ [last] ∧
    List.Forall₂ (List.Forall₂ (IsSet cell ts)) (pieces.map textOf) b.blocks.reverse ∧
    List.Forall₂ (IsSet cell ts) (textOf last) b.block.reverse

theorem hasSet_start : HasSet cell ts 0 (start : Builder α τ) :=
  ⟨[], [], rfl, .nil, .nil⟩

theorem block_addText (text : String) : (b.addText cell text).block.reverse =
    b.block.reverse ++ text.toList.map fun c =>
      { (cell.glyph c : Glyph α τ) with ruby := b.role, link := b.openLinks.head?.getD 0 } := by
  unfold addText
  generalize b.block = gs
  induction text.toList generalizing gs with
  | nil => simp
  | cons c cs ih =>
    dsimp only at ih ⊢
    rw [List.foldl_cons, ih]
    simp

theorem HasSet.text (h : HasSet cell ts n b) (hb : Knows ts n b) (ht : ts[n]? = some t)
    (hkind : t.kind = .text) : HasSet cell ts (n + 1) (b.addText cell t.text) := by
  obtain ⟨pieces, last, hsplit, hpieces, hlast⟩ := h
  refine ⟨pieces, last ++ [(t, n)], ?_, hpieces, ?_⟩
  · rw [numbered_succ ht]
    exact splitOnP_concat (by simp [endsParagraph, hkind]) hsplit
  · rw [textOf_append, textOf_text hkind, block_addText]
    refine List.rel_append hlast ?_
    rw [List.forall₂_map_left_iff, List.forall₂_map_right_iff]
    exact List.forall₂_same.mpr fun c _ => ⟨b.role, _, rfl, hb.role, hb.linkAt⟩

theorem HasSet.paragraph (h : HasSet cell ts n b) (ht : ts[n]? = some t)
    (hkind : t.kind = .paragraph) : HasSet cell ts (n + 1) b.endBlock := by
  obtain ⟨pieces, last, hsplit, hpieces, hlast⟩ := h
  refine ⟨pieces ++ [last], [], ?_, ?_, .nil⟩
  · rw [numbered_succ ht, List.splitOnP_append_cons _ _ (by simp [endsParagraph, hkind]), hsplit]
    rfl
  · rw [List.map_append, endBlock, List.reverse_cons]
    exact List.rel_append hpieces (.cons hlast .nil)

theorem HasSet.tag (h : HasSet cell ts n b) (ht : ts[n]? = some t) (hkind : t.kind = .tag)
    (role : RubyRole) (openLinks : List ℕ) (targets : List String) (linkCount : ℕ) :
    HasSet cell ts (n + 1) { b with role, openLinks, targets, linkCount } := by
  obtain ⟨pieces, last, hsplit, hpieces, hlast⟩ := h
  refine ⟨pieces, last ++ [(t, n)], ?_, hpieces, ?_⟩
  · rw [numbered_succ ht]
    exact splitOnP_concat (by simp [endsParagraph, hkind]) hsplit
  · rw [textOf_append, textOf_of_ne (by simp [hkind]), List.append_nil]
    exact hlast

variable (h : Knows ts n b) (ht : ts[n]? = some t)

include h ht

/-- The builder obeys a tag, or stops at one that closes what is not open. -/
theorem Knows.obey (hset : HasSet cell ts n b) (hkind : t.kind = .tag) :
    (∃ b', b.obey t.text = .ok b' ∧ Knows ts (n + 1) b' ∧ HasSet cell ts (n + 1) b') ∨
      b.obey t.text = .error (.unbalancedTag (tagName t.text)) ∧ Stray ts n := by
  have hruby := rubyTagAt_iff ht hkind
  have hopen := tagAt_link_iff ht hkind
  have hclose := tagAt_closeLink_iff ht hkind
  have hset' := hset.tag ht hkind
  unfold Builder.obey
  cases hbody : Tag.ofBody t.text with
  | openRuby role =>
    rw [hbody] at hopen hclose
    have hopens : OpensRuby ts role n := (opensRuby_iff ht hkind).mpr hbody
    have hstray : ¬ Stray ts n := by
      refine not_stray (fun r hc => ?_) (hclose.not.mpr (by simp))
      rw [closesRuby_iff ht hkind, hbody] at hc
      cases hc
    exact .inl ⟨_, rfl, h.unlinked ht hstray (hopen.not.mpr (by simp)) (hclose.not.mpr (by simp))
      (.inl (inRuby_succ_of_opens hopens)) _ _, hset' ..⟩
  | closeRuby role =>
    rw [hbody] at hopen hclose
    have hcloses : ClosesRuby ts role n := (closesRuby_iff ht hkind).mpr hbody
    have hin : InRuby ts n role ↔ b.role = role := by
      refine h.role.inRuby_iff ?_
      rintro rfl
      simpa [closingTags] using ofBody_eq_closeRuby_iff.mp hbody
    dsimp only
    split_ifs with hrole
    · have hstray : ¬ Stray ts n := by
        refine not_stray (fun r hc => ?_) (hclose.not.mpr (by simp))
        rw [closesRuby_iff ht hkind, hbody] at hc
        exact Tag.closeRuby.inj hc ▸ hin.mpr hrole
      exact .inl ⟨_, rfl, h.unlinked ht hstray (hopen.not.mpr (by simp)) (hclose.not.mpr (by simp))
        (.inr ⟨rfl, fun r => not_inRuby_succ_of_closes hcloses⟩) _ _, hset' ..⟩
    · exact .inr ⟨rfl, .inl ⟨role, hcloses, hin.not.mpr hrole⟩⟩
  | openLink target =>
    rw [hbody] at hruby hopen hclose
    obtain ⟨hname, rfl⟩ := ofBody_eq_openLink_iff.mp hbody
    exact .inl ⟨_, rfl, h.openLink ht (hruby.not.mpr (by simp)) (hopen.mpr rfl)
      (hclose.not.mpr (by simp)), hset' ..⟩
  | closeLink =>
    rw [hbody] at hruby hopen hclose
    cases hb : b.openLinks with
    | nil =>
      have hbalance := h.balance
      rw [hb, List.length_nil, Nat.add_zero] at hbalance
      exact .inr ⟨rfl, .inr ⟨hclose.mpr rfl, hbalance.le⟩⟩
    | cons link rest =>
      exact .inl ⟨_, rfl, h.closeLink ht (hruby.not.mpr (by simp)) (hopen.not.mpr (by simp))
        (hclose.mpr rfl) hb, hset' ..⟩
  | other =>
    rw [hbody] at hruby hopen hclose
    have hnone : ¬ RubyTagAt ts n := hruby.not.mpr (by simp)
    have hclose' := hclose.not.mpr (by simp)
    exact .inl ⟨_, rfl, h.unlinked ht
      (not_stray (fun role hc => absurd ⟨role, .inr hc⟩ hnone) hclose')
      (hopen.not.mpr (by simp)) hclose' ((playsAt_succ_iff hnone).mpr h.role) _ _, hset' ..⟩

theorem Knows.step (hset : HasSet cell ts n b) :
    (∃ b', step cell b t = .ok b' ∧ Knows ts (n + 1) b' ∧ HasSet cell ts (n + 1) b') ∨
      step cell b t = .error (.unbalancedTag (tagName t.text)) ∧ Stray ts n := by
  have hplain : t.kind ≠ .tag → ∀ (blocks : List (List (Glyph α τ))) (block : List (Glyph α τ)),
      Knows ts (n + 1) { b with role := b.role, blocks, block } := by
    intro hkind
    have hruby := not_rubyTagAt ht hkind
    exact h.unlinked ht
      (not_stray (fun role hc => absurd ⟨role, .inr hc⟩ hruby) (not_tagAt ht hkind))
      (not_tagAt ht hkind) (not_tagAt ht hkind) ((playsAt_succ_iff hruby).mpr h.role)
  unfold Builder.step
  cases hkind : t.kind with
  | text => exact .inl ⟨_, rfl, hplain (by simp [hkind]) _ _, hset.text h ht hkind⟩
  | tag => exact h.obey ht hset hkind
  | paragraph => exact .inl ⟨_, rfl, hplain (by simp [hkind]) _ _, hset.paragraph ht hkind⟩

end Texts

section Run

variable {α τ : Type} [Scalar α] [Scalar τ] {cell : Cell α} {ts : List Token}

/-- A run sets all texts, or stops at the first tag that has nothing to close. -/
theorem run (cell : Cell α) (ts : List Token) :
    (∃ b : Builder α τ, ts.foldlM (step cell) start = .ok b ∧
      Knows ts ts.length b ∧ HasSet cell ts ts.length b) ∨
    ∃ i e, ts.foldlM (step cell) (start : Builder α τ) = .error e ∧ FirstStray ts i e := by
  apply foldlM_run (P := fun n b => Knows ts n b ∧ HasSet cell ts n b)
  · exact ⟨knows_start, hasSet_start⟩
  · rintro n t b ht ⟨hknows, hset⟩
    rcases hknows.step ht hset with hstep | ⟨hstep, hstray⟩
    · exact .inl hstep
    · exact .inr ⟨_, hstep, hstray, hknows.sound, t, ht, rfl⟩

theorem HasSet.finish {b : Builder α τ} (h : HasSet cell ts ts.length b) :
    List.Forall₂ (List.Forall₂ (IsSet cell ts)) (paragraphs ts) b.finish.blocks := by
  obtain ⟨pieces, last, hsplit, hpieces, hlast⟩ := h
  rw [List.take_length] at hsplit
  rw [paragraphs, hsplit, List.map_append, Builder.finish, endBlock, List.reverse_cons]
  exact List.rel_append hpieces (.cons hlast .nil)

end Run

end Builder

section Built

variable {α τ : Type} [Scalar α] [Scalar τ]

theorem buildBlocks_cases (cell : Cell α) (ts : List Token) :
    (∃ b : Builder α τ, buildBlocks cell ts = .ok b.finish ∧
      Builder.Knows ts ts.length b ∧ Builder.HasSet cell ts ts.length b) ∨
    ∃ i e, (buildBlocks cell ts : Except Fault (Blocks α τ)) = .error e ∧ FirstStray ts i e := by
  unfold buildBlocks
  rcases Builder.run (τ := τ) cell ts with ⟨b, hb, hknows, hset⟩ | ⟨i, e, he, hfirst⟩
  · rw [hb]
    exact .inl ⟨b, rfl, hknows, hset⟩
  · rw [he]
    exact .inr ⟨i, e, rfl, hfirst⟩

section Accepted

variable {cell : Cell α} {ts : List Token} {B : Blocks α τ} (h : buildBlocks cell ts = .ok B)

include h

theorem exists_builder : ∃ b : Builder α τ, b.finish = B ∧ Builder.Knows ts ts.length b ∧
    Builder.HasSet cell ts ts.length b := by
  rcases buildBlocks_cases (τ := τ) cell ts with ⟨b, hb, hknows, hset⟩ | ⟨_, e, he, _⟩
  · exact ⟨b, Except.ok.inj (hb.symm.trans h), hknows, hset⟩
  · rw [he] at h
    cases h

theorem targets_of_buildBlocks :
    B.targets = (ts.filter (Token.isTag "a")).map (tagValue ·.text) := by
  obtain ⟨b, rfl, hknows, _⟩ := exists_builder h
  rw [Builder.finish, hknows.targets, List.take_length]

theorem isSet_of_buildBlocks :
    List.Forall₂ (List.Forall₂ (IsSet cell ts)) (paragraphs ts) B.blocks := by
  obtain ⟨b, rfl, _, hset⟩ := exists_builder h
  exact hset.finish

end Accepted

/-- Every glyph carries the number of the innermost link open at its text, as far as numbers go,
and the targets stand in the order of their tags. -/
structure ScopesLinks (ts : List Token) (B : Blocks α τ) : Prop where
  targets : B.targets = (ts.filter (Token.isTag "a")).map (tagValue ·.text)
  links : List.Forall₂ (fun c g => LinkAt ts c.2 g.link) (paragraphs ts).flatten B.blocks.flatten
  target : ∀ p ∈ (paragraphs ts).flatten.zip B.blocks.flatten, ∀ j, InnermostLink ts p.1.2 j →
    linkNumber ts j ≤ maxLink →
      ∃ t, ts[j]? = some t ∧ B.targets[p.2.link - 1]? = some (tagValue t.text)
  same_iff : ∀ p ∈ (paragraphs ts).flatten.zip B.blocks.flatten,
    ∀ q ∈ (paragraphs ts).flatten.zip B.blocks.flatten, p.2.link ≠ 0 → q.2.link ≠ 0 →
      p.2.link < maxLink ∨ q.2.link < maxLink →
        (p.2.link = q.2.link ↔ ∃ j, InnermostLink ts p.1.2 j ∧ InnermostLink ts q.1.2 j)

theorem buildBlocks_scopesLinks {cell : Cell α} {ts : List Token} {B : Blocks α τ}
    (h : buildBlocks cell ts = .ok B) : ScopesLinks ts B := by
  have htargets := targets_of_buildBlocks h
  have hlinks : List.Forall₂ (fun c g => LinkAt ts c.2 g.link)
      (paragraphs ts).flatten B.blocks.flatten := by
    apply List.rel_flatten
    exact (isSet_of_buildBlocks h).imp fun _ _ hblock => hblock.imp fun _ _ hg => hg.linkAt
  have hmem := List.forall₂_iff_zip.mp hlinks
  refine ⟨htargets, hlinks, ?_, ?_⟩
  · intro p hp j hj hle
    rw [htargets]
    exact ((hmem.2 hp).target hj hle).2
  · intro p hp q hq
    exact (hmem.2 hp).eq_iff (hmem.2 hq)

/-- A link inside another that stays open over the end of a paragraph. -/
def nestedLinks : List Token :=
  [⟨.tag, "a=x"⟩, ⟨.text, "p"⟩, ⟨.tag, "a"⟩, ⟨.text, "q"⟩, ⟨.tag, "/a"⟩, .paragraphEnd,
    ⟨.text, "r"⟩, ⟨.tag, "/a"⟩, ⟨.text, "s"⟩]

/-- Cells of one unit. -/
def unitCell : Cell ℚ := ⟨1, 1, 0, 1⟩

def linkedGlyph (c : Char) (link : ℕ) : Glyph ℚ ℚ := { unitCell.glyph c with link }

/-- The paragraphs that the nested links make. -/
def linkedBlocks : Blocks ℚ ℚ :=
  ⟨[[linkedGlyph 'p' 1, linkedGlyph 'q' 2], [linkedGlyph 'r' 1, linkedGlyph 's' 0]], ["x", ""]⟩

theorem buildBlocks_nestedLinks : buildBlocks unitCell nestedLinks = .ok linkedBlocks := by
  cbv

theorem buildBlocks_scopesLinks_nestedLinks :
    ∃ B : Blocks ℚ ℚ, buildBlocks unitCell nestedLinks = .ok B ∧
      B.blocks.map (·.map Glyph.link) = [[1, 2], [1, 0]] ∧ ScopesLinks nestedLinks B :=
  ⟨linkedBlocks, buildBlocks_nestedLinks, rfl, buildBlocks_scopesLinks buildBlocks_nestedLinks⟩

end Built

end Typeset.Markup
