import Typeset.Markup.Block
import Typeset.Proofs.Positions

/-!
# What the tags before a text say

The part of a text in an annotation is that of the nearest ruby tag before it, and none if that one
closes. Link tags nest: a closing one ends the latest link that is still open. Neither stops at the
end of a paragraph.
-/

namespace Typeset.Markup

section Names

/-- A tag of the given name. -/
def Token.isTag (name : String) (t : Token) : Bool := t.kind == .tag && tagName t.text == name

/-- The names of the tags that open a base or an annotation. -/
def openingTags : List (String × RubyRole) := [("rb", .base), ("rt", .above), ("art", .below)]

/-- The names of the tags that close one. -/
def closingTags : List (String × RubyRole) := [("/rb", .base), ("/rt", .above), ("/art", .below)]

theorem isTag_iff {name : String} {t : Token} :
    t.isTag name = true ↔ t.kind = .tag ∧ tagName t.text = name := by
  simp [Token.isTag]

theorem ofBody_eq_openRuby_iff {body : String} {role : RubyRole} :
    Tag.ofBody body = .openRuby role ↔ (tagName body, role) ∈ openingTags := by
  unfold Tag.ofBody openingTags
  split <;> grind

theorem ofBody_eq_closeRuby_iff {body : String} {role : RubyRole} :
    Tag.ofBody body = .closeRuby role ↔ (tagName body, role) ∈ closingTags := by
  unfold Tag.ofBody closingTags
  split <;> grind

theorem ofBody_eq_openLink_iff {body target : String} :
    Tag.ofBody body = .openLink target ↔ tagName body = "a" ∧ target = tagValue body := by
  unfold Tag.ofBody
  split <;> grind

theorem ofBody_eq_closeLink_iff {body : String} :
    Tag.ofBody body = .closeLink ↔ tagName body = "/a" := by
  unfold Tag.ofBody
  split <;> grind

end Names

section Scope

variable (ts : List Token)

/-- A tag of the given name stands at the position. -/
def TagAt (name : String) (i : ℕ) : Prop := ∃ t, ts[i]? = some t ∧ t.isTag name = true

def OpensRuby (role : RubyRole) (i : ℕ) : Prop :=
  ∃ name, (name, role) ∈ openingTags ∧ TagAt ts name i

def ClosesRuby (role : RubyRole) (i : ℕ) : Prop :=
  ∃ name, (name, role) ∈ closingTags ∧ TagAt ts name i

def RubyTagAt (i : ℕ) : Prop := ∃ role, OpensRuby ts role i ∨ ClosesRuby ts role i

/-- The nearest ruby tag before the position opens the role. -/
def InRuby (i : ℕ) (role : RubyRole) : Prop :=
  ∃ j, IsLastBefore (RubyTagAt ts) i j ∧ OpensRuby ts role j

/-- The part that a text at the position plays in an annotation. -/
def PlaysAt (i : ℕ) (role : RubyRole) : Prop :=
  InRuby ts i role ∨ role = .plain ∧ ∀ r, ¬ InRuby ts i r

/-- The tag at `m` closes the link opened at `j`, the latest before it that no earlier tag
closes. -/
def ClosesLink (m j : ℕ) : Prop :=
  TagAt ts "/a" m ∧
    IsLastBefore (fun j => TagAt ts "a" j ∧ ∀ k, ∀ _ : k < m, ¬ ClosesLink k j) m j
termination_by m

/-- The link opened at `j` is still open at `i`. -/
def LinkOpen (i j : ℕ) : Prop := TagAt ts "a" j ∧ ∀ k < i, ¬ ClosesLink ts k j

/-- The innermost link that is open at the position was opened at `j`. -/
def InnermostLink (i j : ℕ) : Prop := IsLastBefore (LinkOpen ts i) i j

/-- How many link tags there are up to and including position `j`. -/
def linkNumber (j : ℕ) : ℕ := (ts.take (j + 1)).countP (Token.isTag "a")

/-- The number that the glyphs of a text at the position carry for their link. -/
def LinkAt (i link : ℕ) : Prop :=
  link = 0 ∧ (∀ j < i, ¬ LinkOpen ts i j) ∨
    ∃ j, InnermostLink ts i j ∧ link = min (linkNumber ts j) maxLink

/-- A closing tag that has nothing to close. -/
def Stray (i : ℕ) : Prop :=
  (∃ role, ClosesRuby ts role i ∧ ¬ InRuby ts i role) ∨
    TagAt ts "/a" i ∧
      (ts.take i).countP (Token.isTag "a") ≤ (ts.take i).countP (Token.isTag "/a")

end Scope

section Positions

variable {ts : List Token} {t : Token} {name : String} {role r : RubyRole} {i j n : ℕ}

theorem tagAt_iff (ht : ts[i]? = some t) : TagAt ts name i ↔ t.isTag name = true := by
  constructor
  · rintro ⟨u, hu, hname⟩
    rw [ht] at hu
    obtain rfl := Option.some.inj hu
    exact hname
  · exact fun hname => ⟨t, ht, hname⟩

theorem not_tagAt (ht : ts[i]? = some t) (hkind : t.kind ≠ .tag) : ¬ TagAt ts name i := by
  rw [tagAt_iff ht, isTag_iff]
  exact fun h => hkind h.1

theorem tagAt_iff_tagName (ht : ts[i]? = some t) (hkind : t.kind = .tag) :
    TagAt ts name i ↔ tagName t.text = name := by
  rw [tagAt_iff ht, isTag_iff]
  exact and_iff_right hkind

section OfBody

variable (ht : ts[i]? = some t) (hkind : t.kind = .tag)

include ht hkind

theorem exists_tagAt_iff {tags : List (String × RubyRole)} :
    (∃ name, (name, role) ∈ tags ∧ TagAt ts name i) ↔ (tagName t.text, role) ∈ tags := by
  simp only [tagAt_iff_tagName ht hkind]
  exact ⟨fun ⟨_, hmem, hname⟩ => hname ▸ hmem, fun hmem => ⟨_, hmem, rfl⟩⟩

theorem opensRuby_iff : OpensRuby ts role i ↔ Tag.ofBody t.text = .openRuby role :=
  (exists_tagAt_iff ht hkind).trans ofBody_eq_openRuby_iff.symm

theorem closesRuby_iff : ClosesRuby ts role i ↔ Tag.ofBody t.text = .closeRuby role :=
  (exists_tagAt_iff ht hkind).trans ofBody_eq_closeRuby_iff.symm

theorem tagAt_link_iff : TagAt ts "a" i ↔ Tag.ofBody t.text = .openLink (tagValue t.text) := by
  rw [tagAt_iff_tagName ht hkind, ofBody_eq_openLink_iff]
  exact (and_iff_left rfl).symm

theorem tagAt_closeLink_iff : TagAt ts "/a" i ↔ Tag.ofBody t.text = .closeLink := by
  rw [tagAt_iff_tagName ht hkind, ofBody_eq_closeLink_iff]

theorem rubyTagAt_iff : RubyTagAt ts i ↔
    ∃ role, Tag.ofBody t.text = .openRuby role ∨ Tag.ofBody t.text = .closeRuby role :=
  exists_congr fun _ => or_congr (opensRuby_iff ht hkind) (closesRuby_iff ht hkind)

end OfBody

theorem not_rubyTagAt (ht : ts[i]? = some t) (hkind : t.kind ≠ .tag) : ¬ RubyTagAt ts i := by
  rintro ⟨_, ⟨_, _, h⟩ | ⟨_, _, h⟩⟩
  · exact not_tagAt ht hkind h
  · exact not_tagAt ht hkind h

end Positions

section Ruby

variable {ts : List Token} {role r : RubyRole} {n : ℕ}

theorem OpensRuby.unique (h : OpensRuby ts role n) (h' : OpensRuby ts r n) : role = r := by
  obtain ⟨_, _, t, ht, htag⟩ := h
  have hkind := (isTag_iff.mp htag).1
  have hopen := (opensRuby_iff ht hkind).mp ⟨_, ‹_›, t, ht, htag⟩
  rw [opensRuby_iff ht hkind, hopen] at h'
  exact Tag.openRuby.inj h'

theorem InRuby.unique (h : InRuby ts n role) (h' : InRuby ts n r) : role = r := by
  obtain ⟨j, hj, hopen⟩ := h
  obtain ⟨k, hk, hopen'⟩ := h'
  obtain rfl := hj.unique hk
  exact hopen.unique hopen'

theorem inRuby_succ_of_opens (h : OpensRuby ts role n) : InRuby ts (n + 1) role :=
  ⟨n, isLastBefore_self ⟨role, .inl h⟩, h⟩

theorem not_inRuby_succ_of_closes (h : ClosesRuby ts role n) : ¬ InRuby ts (n + 1) r := by
  rintro ⟨j, hj, hopen⟩
  obtain rfl := hj.unique (isLastBefore_self ⟨role, .inr h⟩)
  obtain ⟨_, _, t, ht, htag⟩ := id h
  have hkind := (isTag_iff.mp htag).1
  rw [closesRuby_iff ht hkind] at h
  rw [opensRuby_iff ht hkind, h] at hopen
  cases hopen

theorem inRuby_succ_iff (h : ¬ RubyTagAt ts n) : InRuby ts (n + 1) r ↔ InRuby ts n r :=
  exists_congr fun _ => and_congr_left' (isLastBefore_succ_iff h)

theorem playsAt_zero : PlaysAt ts 0 .plain :=
  .inr ⟨rfl, fun _ ⟨_, hj, _⟩ => absurd hj.lt (Nat.not_lt_zero _)⟩

theorem playsAt_succ_iff (h : ¬ RubyTagAt ts n) : PlaysAt ts (n + 1) r ↔ PlaysAt ts n r := by
  unfold PlaysAt
  simp only [inRuby_succ_iff h]

theorem PlaysAt.inRuby_iff (h : PlaysAt ts n r) (hrole : role ≠ .plain) :
    InRuby ts n role ↔ r = role := by
  rcases h with h | ⟨rfl, hnone⟩
  · exact ⟨h.unique, fun heq => heq ▸ h⟩
  · exact ⟨fun hin => absurd hin (hnone role), fun heq => absurd heq.symm hrole⟩

end Ruby

section Links

variable {ts : List Token} {i j m n : ℕ} {links : List ℕ}

theorem closesLink_iff : ClosesLink ts m j ↔ TagAt ts "/a" m ∧ InnermostLink ts m j := by
  rw [ClosesLink]
  rfl

theorem linkOpen_succ_iff : LinkOpen ts (n + 1) j ↔ LinkOpen ts n j ∧ ¬ ClosesLink ts n j := by
  unfold LinkOpen
  rw [Nat.forall_lt_succ_right, and_assoc]

/-- The links that are open at a position, the innermost first. -/
structure OpenLinks (ts : List Token) (n : ℕ) (links : List ℕ) : Prop where
  sorted : links.Pairwise (· > ·)
  mem_iff : ∀ j, j ∈ links ↔ j < n ∧ LinkOpen ts n j

theorem openLinks_zero : OpenLinks ts 0 [] := ⟨.nil, by simp⟩

theorem OpenLinks.innermost_iff (h : OpenLinks ts n links) :
    InnermostLink ts n j ↔ links.head? = some j := by
  cases links with
  | nil =>
    simp only [List.head?_nil, reduceCtorEq, iff_false]
    intro hj
    simpa using (h.mem_iff j).mpr ⟨hj.lt, hj.holds⟩
  | cons a rest =>
    obtain ⟨hlt, hopen⟩ := (h.mem_iff a).mp (by simp)
    have ha : InnermostLink ts n a := by
      refine ⟨hlt, hopen, fun k hak hk hkopen => ?_⟩
      rcases List.mem_cons.mp ((h.mem_iff k).mpr ⟨hk, hkopen⟩) with rfl | hmem
      · omega
      · have := List.rel_of_pairwise_cons h.sorted hmem
        omega
    rw [List.head?_cons, Option.some.injEq]
    exact ⟨ha.unique, fun heq => heq ▸ ha⟩

/-- Past a tag that opens a link. -/
theorem OpenLinks.push (h : OpenLinks ts n links) (hopen : TagAt ts "a" n)
    (hclose : ¬ TagAt ts "/a" n) : OpenLinks ts (n + 1) (n :: links) where
  sorted := List.pairwise_cons.mpr ⟨fun j hj => ((h.mem_iff j).mp hj).1, h.sorted⟩
  mem_iff j := by
    have hnone : ¬ ClosesLink ts n j := fun hc => hclose (closesLink_iff.mp hc).1
    rw [List.mem_cons, h.mem_iff, linkOpen_succ_iff, and_iff_left hnone]
    constructor
    · rintro (rfl | ⟨hlt, hj⟩)
      · refine ⟨Nat.lt_succ_self j, hopen, fun k hk hc => ?_⟩
        have := (closesLink_iff.mp hc).2.lt
        omega
      · exact ⟨by omega, hj⟩
    · rintro ⟨hlt, hj⟩
      rcases (Nat.lt_succ_iff.mp hlt).eq_or_lt with rfl | hlt
      · exact .inl rfl
      · exact .inr ⟨hlt, hj⟩

/-- Past a tag that opens no link, those stay open that it does not close. -/
theorem OpenLinks.mem_succ_iff (h : OpenLinks ts n links) (hopen : ¬ TagAt ts "a" n) :
    j < n + 1 ∧ LinkOpen ts (n + 1) j ↔ j ∈ links ∧ ¬ ClosesLink ts n j := by
  rw [h.mem_iff, linkOpen_succ_iff]
  constructor
  · rintro ⟨hlt, hj, hnot⟩
    have hne : j ≠ n := by
      rintro rfl
      exact hopen hj.1
    exact ⟨⟨by omega, hj⟩, hnot⟩
  · rintro ⟨⟨hlt, hj⟩, hnot⟩
    exact ⟨by omega, hj, hnot⟩

theorem OpenLinks.pass (h : OpenLinks ts n links) (hopen : ¬ TagAt ts "a" n)
    (hclose : ¬ TagAt ts "/a" n) : OpenLinks ts (n + 1) links where
  sorted := h.sorted
  mem_iff j := by
    have hnone : ¬ ClosesLink ts n j := fun hc => hclose (closesLink_iff.mp hc).1
    rw [h.mem_succ_iff hopen, and_iff_left hnone]

theorem OpenLinks.pop (h : OpenLinks ts n (i :: links)) (hopen : ¬ TagAt ts "a" n)
    (hclose : TagAt ts "/a" n) : OpenLinks ts (n + 1) links where
  sorted := h.sorted.of_cons
  mem_iff j := by
    have hcloses : ClosesLink ts n j ↔ j = i := by
      rw [closesLink_iff, and_iff_right hclose, h.innermost_iff, List.head?_cons,
        Option.some.injEq, eq_comm]
    have hi : i ∉ links := fun hi => absurd (List.rel_of_pairwise_cons h.sorted hi) (lt_irrefl i)
    rw [h.mem_succ_iff hopen, hcloses, List.mem_cons]
    constructor
    · intro hj
      exact ⟨.inr hj, fun heq => hi (heq ▸ hj)⟩
    · rintro ⟨rfl | hj, hne⟩
      · exact absurd rfl hne
      · exact hj

end Links

end Typeset.Markup
