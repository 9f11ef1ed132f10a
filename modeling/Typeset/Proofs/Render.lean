import Typeset.Proofs.Sweep
import Typeset.Proofs.Tokens

/-!
# Writing tokens as markup

A token is written with its braces doubled, in braces, or as a newline. Where no bracketed reading
is expanded, each token is written as the stretch of items that it came from, so that writing and
reading undo each other.
-/

namespace Typeset.Markup

/-- The markup of a token. -/
def Token.spelling (t : Token) : List Char :=
  match t.kind with
  | .text => escape t.text.toList
  | .tag => '{' :: (t.text.toList ++ ['}'])
  | .paragraph => ['\n']

/-- The markup of tokens. -/
def render (ts : List Token) : String := String.ofList (ts.flatMap Token.spelling)

/-- What a token holds that was read from markup without bracketed readings. -/
def Token.IsProper (t : Token) : Prop :=
  match t.kind with
  | .text => t.text ≠ "" ∧ '\n' ∉ t.text.toList ∧ Group.openBracket ∉ t.text.toList
  | .tag => IsTagBody t.text.toList
  | .paragraph => t.text = ""

/-- Neighbours that are not both text. -/
def Token.Apart (a b : Token) : Prop := ¬ (a.kind = .text ∧ b.kind = .text)

/-- Tokens that some markup without bracketed readings stands for. -/
structure Canonical (ts : List Token) : Prop where
  proper : ∀ t ∈ ts, t.IsProper
  apart : ts.IsChain Token.Apart

/-- No tag of the text apart, it holds no opening bracket. -/
def Unbracketed (s : String) : Prop :=
  ∀ items, spell items = s.toList → Group.openBracket ∉ literalText items

/-- A stretch of items that is read as one token, and as which the token is written. -/
structure Writes (stretch : List Item) (t : Token) : Prop where
  ne_nil : stretch ≠ []
  flows : stretch.IsChain fun a b => a.flows b = true
  tokens : stretchTokens stretch = [t]
  spelling : t.spelling = spell stretch
  literal_iff : ∀ i ∈ stretch, i.literal?.isSome = true ↔ t.kind = .text

theorem exists_forall₂ {β γ : Type} {R : β → γ → Prop} {l : List β} (h : ∀ a ∈ l, ∃ b, R a b) :
    ∃ m, List.Forall₂ R l m := by
  induction l with
  | nil => exact ⟨[], .nil⟩
  | cons a l ih =>
    obtain ⟨b, hb⟩ := h a (by simp)
    obtain ⟨m, hm⟩ := ih fun c hc => h c (by simp [hc])
    exact ⟨b :: m, .cons hb hm⟩

theorem ne_newline_of_mem_literalText {items : List Item} {c : Char} (h : c ∈ literalText items) :
    c ≠ '\n' := by
  obtain ⟨i, _, hi⟩ := List.mem_filterMap.mp h
  cases i with
  | newline => cases hi
  | brace =>
    obtain rfl := Option.some.inj hi
    decide
  | tag body hbody => cases hi
  | plain d hd =>
    obtain rfl := Option.some.inj hi
    exact hd.2

theorem spell_literal {stretch : List Item} (h : ∀ i ∈ stretch, i.literal?.isSome = true) :
    spell stretch = escape (literalText stretch) := by
  induction stretch with
  | nil => rfl
  | cons i stretch ih =>
    have hrest := ih fun j hj => h j (by simp [hj])
    rw [spell_cons, hrest]
    cases i with
    | newline => simpa [Item.literal?] using h .newline (by simp)
    | brace => rfl
    | tag body hbody => simpa [Item.literal?] using h (.tag body hbody) (by simp)
    | plain c hc => simp [escape, literalText, Item.literal?, Item.spelling, hc.1]

theorem writes_newline : Writes [.newline] .paragraphEnd :=
  ⟨by simp, .singleton _, rfl, rfl, by simp [Item.literal?, Token.paragraphEnd]⟩

theorem writes_tag (body : List Char) (hbody : IsTagBody body) :
    Writes [.tag body hbody] (.ofTag body) := by
  refine ⟨by simp, .singleton _, rfl, ?_, by simp [Item.literal?, Token.ofTag]⟩
  simp [Token.spelling, Token.ofTag, Item.spelling]

/-- A stretch without an opening bracket is one text. -/
theorem writes_literal {stretch : List Item} (hne : stretch ≠ [])
    (h : ∀ i ∈ stretch, i.literal?.isSome = true)
    (hbracket : Group.openBracket ∉ literalText stretch) :
    Writes stretch (.ofText (literalText stretch)) ∧
      (Token.ofText (literalText stretch)).IsProper := by
  have htext : literalText stretch ≠ [] := by
    intro hnil
    cases stretch with
    | nil => contradiction
    | cons i stretch =>
      have hi := h i (by simp)
      rw [List.filterMap_eq_nil_iff.mp hnil i (by simp)] at hi
      cases hi
  refine ⟨⟨hne, isChain_literal h, ?_, ?_, fun i hi => by simpa [Token.ofText] using h i hi⟩, ?_⟩
  · rw [stretchTokens_literal h, Group.expand_of_not_mem hbracket, Token.consText]
    simp [htext]
  · simp [Token.spelling, Token.ofText, spell_literal h]
  · refine ⟨?_, ?_, ?_⟩
    · simpa [Token.ofText] using htext
    · rw [Token.ofText, String.toList_ofList]
      exact fun hn => ne_newline_of_mem_literalText hn rfl
    · rwa [Token.ofText, String.toList_ofList]

theorem stretch_cases {stretch : List Item} (hne : stretch ≠ [])
    (h : stretch.IsChain fun a b => a.flows b = true) :
    stretch = [.newline] ∨ (∃ body hbody, stretch = [.tag body hbody]) ∨
      ∀ i ∈ stretch, i.literal?.isSome = true := by
  induction stretch with
  | nil => contradiction
  | cons i rest ih =>
    cases rest with
    | nil =>
      cases i with
      | newline => exact .inl rfl
      | tag body hbody => exact .inr (.inl ⟨body, hbody, rfl⟩)
      | brace => exact .inr (.inr (by simp [Item.literal?]))
      | plain c hc => exact .inr (.inr (by simp [Item.literal?]))
    | cons j rest =>
      rw [List.isChain_cons_cons, Item.flows, Bool.and_eq_true] at h
      obtain ⟨⟨hi, hj⟩, hrest⟩ := h
      rcases ih (by simp) hrest with hnl | ⟨body, hbody, htag⟩ | hlit
      · obtain ⟨rfl, _⟩ := List.cons.inj hnl
        cases hj
      · obtain ⟨rfl, _⟩ := List.cons.inj htag
        cases hj
      · exact .inr (.inr (List.forall_mem_cons.mpr ⟨hi, hlit⟩))

/-- Every stretch of a text without brackets is read as one proper token. -/
theorem exists_writes_of_stretch {stretch : List Item} (hne : stretch ≠ [])
    (h : stretch.IsChain fun a b => a.flows b = true)
    (hbracket : Group.openBracket ∉ literalText stretch) :
    ∃ t : Token, Writes stretch t ∧ t.IsProper := by
  rcases stretch_cases hne h with rfl | ⟨body, hbody, rfl⟩ | hlit
  · exact ⟨.paragraphEnd, writes_newline, rfl⟩
  · refine ⟨.ofTag body, writes_tag body hbody, ?_⟩
    change IsTagBody (String.ofList body).toList
    rwa [String.toList_ofList]
  · exact ⟨_, writes_literal hne hlit hbracket⟩

/-- Every proper token can be written as a stretch. -/
theorem exists_writes_of_token {t : Token} (h : t.IsProper) : ∃ stretch, Writes stretch t := by
  obtain ⟨kind, text⟩ := t
  cases kind with
  | text =>
    obtain ⟨hne, hnewline, hbracket⟩ := h
    obtain ⟨stretch, hlit, _, htext⟩ := exists_literal hnewline
    have hstretch : stretch ≠ [] := by
      rintro rfl
      exact hne (String.toList_eq_nil_iff.mp htext.symm)
    have hw := (writes_literal hstretch hlit (by rwa [htext])).1
    rw [htext, Token.ofText, String.ofList_toList] at hw
    exact ⟨stretch, hw⟩
  | tag =>
    have hw := writes_tag text.toList h
    rw [Token.ofTag, String.ofList_toList] at hw
    exact ⟨_, hw⟩
  | paragraph =>
    obtain rfl : text = "" := h
    exact ⟨_, writes_newline⟩

/-- Two stretches fall apart exactly if their tokens are not both text. -/
theorem Writes.apart_iff {l m : List Item} {t u : Token} (ht : Writes l t) (hu : Writes m u) :
    (∃ hl hm, (l.getLast hl).flows (m.head hm) = false) ↔ t.Apart u := by
  have hlast := ht.literal_iff (l.getLast ht.ne_nil) (List.getLast_mem ht.ne_nil)
  have hhead := hu.literal_iff (m.head hu.ne_nil) (List.head_mem hu.ne_nil)
  have hflows : (l.getLast ht.ne_nil).flows (m.head hu.ne_nil) = true ↔
      t.kind = .text ∧ u.kind = .text := by
    rw [Item.flows, Bool.and_eq_true, hlast, hhead]
  rw [Token.Apart, ← hflows, Bool.not_eq_true]
  constructor
  · rintro ⟨_, _, h⟩
    exact h
  · intro h
    exact ⟨ht.ne_nil, hu.ne_nil, h⟩

theorem tokens_of_writes {stretches : List (List Item)} {ts : List Token}
    (h : List.Forall₂ Writes stretches ts) :
    stretches.flatMap stretchTokens = ts ∧
      ts.flatMap Token.spelling = spell stretches.flatten := by
  induction h with
  | nil => exact ⟨rfl, rfl⟩
  | cons hw _ ih =>
    obtain ⟨htokens, hspelling⟩ := ih
    rw [List.flatMap_cons, hw.tokens, htokens, List.flatMap_cons, hw.spelling, hspelling,
      List.flatten_cons, spell_append]
    exact ⟨rfl, rfl⟩

theorem exists_writes {items : List Item} (hbracket : Group.openBracket ∉ literalText items) :
    ∃ ts, (∀ t ∈ ts, t.IsProper) ∧ List.Forall₂ Writes (items.splitBy Item.flows) ts := by
  have hstretch : ∀ stretch ∈ items.splitBy Item.flows, ∃ t : Token,
      t.IsProper ∧ Writes stretch t := by
    intro stretch hmem
    have hsub : Group.openBracket ∉ literalText stretch := by
      intro hc
      obtain ⟨i, hi, hic⟩ := List.mem_filterMap.mp hc
      have hitems : i ∈ items := by
        rw [← List.flatten_splitBy Item.flows items]
        exact List.mem_flatten_of_mem hmem hi
      exact hbracket (List.mem_filterMap.mpr ⟨i, hitems, hic⟩)
    obtain ⟨t, hw, hproper⟩ := exists_writes_of_stretch (List.ne_nil_of_mem_splitBy hmem)
      (List.isChain_of_mem_splitBy hmem) hsub
    exact ⟨t, hproper, hw⟩
  obtain ⟨ts, hts⟩ := exists_forall₂ hstretch
  obtain ⟨hproper, hw⟩ := (List.forall₂_and_left _ _).mp hts.flip
  exact ⟨ts, hproper, hw.flip⟩

/-- The tokens of a text without brackets are canonical, and writing them gives the text back. -/
theorem render_of_tokenize {s : String} {ts : List Token} (hs : Unbracketed s)
    (h : tokenize s = .ok ts) : render ts = s ∧ Canonical ts := by
  obtain ⟨items, hitems, rfl⟩ := (tokenize_ok_iff s ts).mp h
  obtain ⟨us, hproper, hus⟩ := exists_writes (hs items hitems)
  obtain ⟨htokens, hspelling⟩ := tokens_of_writes hus
  rw [List.flatten_splitBy] at hspelling
  rw [tokensOf, htokens, render, hspelling, hitems, String.ofList_toList]
  refine ⟨rfl, hproper, ?_⟩
  exact isChain_of_forall₂ hus (List.isChain_getLast_head_splitBy _ _)
    fun _ _ _ _ hl hm => (hl.apart_iff hm).mp

/-- Reading what was written gives the tokens back. -/
theorem tokenize_render {ts : List Token} (h : Canonical ts) : tokenize (render ts) = .ok ts := by
  obtain ⟨stretches, hts⟩ := exists_forall₂ fun t ht => exists_writes_of_token (h.proper t ht)
  have hw : List.Forall₂ Writes stretches ts := hts.flip
  have hstretch : ∀ stretch ∈ stretches,
      stretch ≠ [] ∧ stretch.IsChain fun a b => a.flows b = true := by
    refine And.left ((List.forall₂_and_left (R := Writes) stretches ts).mp (hw.imp ?_))
    exact fun _ _ hw => ⟨⟨hw.ne_nil, hw.flows⟩, hw⟩
  have hsplit : stretches.flatten.splitBy Item.flows = stretches := by
    refine List.splitBy_flatten (fun hnil => (hstretch [] hnil).1 rfl)
      (fun stretch hmem => (hstretch stretch hmem).2) ?_
    exact isChain_of_forall₂ hts h.apart fun _ _ _ _ ht hu => (ht.apart_iff hu).mpr
  obtain ⟨htokens, hspelling⟩ := tokens_of_writes hw
  have hrender : spell stretches.flatten = (render ts).toList := by
    rw [render, String.toList_ofList, hspelling]
  rw [tokenize_spell hrender, tokensOf, hsplit, htokens]

theorem render_tokenize_inverse :
    (∀ s ts, Unbracketed s → tokenize s = .ok ts → render ts = s ∧ Canonical ts) ∧
      ∀ ts, Canonical ts → tokenize (render ts) = .ok ts :=
  ⟨fun _ _ => render_of_tokenize, fun _ => tokenize_render⟩

/-- A brace of text, a tag that holds a bracket, and a newline. -/
def bracketTag : String := "\x7b\x7b\x7b【\x7d\n"

def bracketTagTokens : List Token := [⟨.text, "\x7b"⟩, ⟨.tag, "【"⟩, .paragraphEnd]

theorem unbracketed_bracketTag : Unbracketed bracketTag := by
  intro items hitems
  have hbody : IsTagBody ['【'] := by simp [IsTagBody]
  have hspell : spell [.brace, .tag ['【'] hbody, .newline] = bracketTag.toList := by
    simp [bracketTag, Item.spelling]
  obtain rfl := spell_injective (hitems.trans hspell.symm)
  simp [literalText, Item.literal?, Group.openBracket]

theorem canonical_bracketTagTokens : Canonical bracketTagTokens := by
  refine ⟨?_, ?_⟩
  · simp [bracketTagTokens, Token.IsProper, IsTagBody, Token.paragraphEnd, Group.openBracket]
  · simp [bracketTagTokens, Token.Apart, Token.paragraphEnd]

theorem render_tokenize_inverse_bracketTag :
    Unbracketed bracketTag ∧ tokenize bracketTag = .ok bracketTagTokens ∧
      Canonical bracketTagTokens ∧ render bracketTagTokens = bracketTag ∧
      tokenize (render bracketTagTokens) = .ok bracketTagTokens := by
  have hread : tokenize bracketTag = .ok bracketTagTokens := by decide +kernel
  have hrender := (render_tokenize_inverse.1 _ _ unbracketed_bracketTag hread).1
  have hagain := render_tokenize_inverse.2 _ canonical_bracketTagTokens
  exact ⟨unbracketed_bracketTag, hread, canonical_bracketTagTokens, hrender, hagain⟩

end Typeset.Markup
