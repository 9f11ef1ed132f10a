import Mathlib.Data.List.SplitBy
import Mathlib.Data.String.Basic
import Mathlib.Tactic
import Typeset.Markup.Reader

/-!
# The grammar of markup

A marked up text is a sequence of items: newlines, doubled braces, tags and other characters. No
item is spelled like the beginning of another, so a text is the spelling of one sequence at most,
and where it is none, it breaks off at one place. Reading gives the tokens of the sequence, or
the fault at that place.
-/

namespace Typeset.Markup

/-- What may stand between the braces of a tag. -/
def IsTagBody (body : List Char) : Prop := body ≠ [] ∧ body.head? ≠ some '{' ∧ '}' ∉ body

/-- An item of marked up text. -/
inductive Item where
  | newline
  /-- A doubled opening brace. -/
  | brace
  | tag (body : List Char) (isBody : IsTagBody body)
  /-- Any other character. -/
  | plain (c : Char) (isPlain : c ≠ '{' ∧ c ≠ '\n')

namespace Item

/-- The characters of an item. -/
def spelling : Item → List Char
  | newline => ['\n']
  | brace => ['{', '{']
  | tag body _ => '{' :: (body ++ ['}'])
  | plain c _ => [c]

/-- The character that an item of literal text stands for. -/
def literal? : Item → Option Char
  | brace => some '{'
  | plain c _ => some c
  | newline | tag .. => none

/-- Whether two neighbours belong to one stretch of literal text. -/
def flows (a b : Item) : Bool := a.literal?.isSome && b.literal?.isSome

end Item

/-- The text that items spell. -/
def spell (items : List Item) : List Char := items.flatMap Item.spelling

/-- The literal text that items stand for. -/
def literalText (items : List Item) : List Char := items.filterMap Item.literal?

/-- The tokens of a newline, of a tag, or of a stretch of literal text. -/
def stretchTokens : List Item → List Token
  | [.newline] => [.paragraphEnd]
  | [.tag body _] => [.ofTag body]
  | stretch => Group.expand (literalText stretch)

/-- The tokens of items, one maximal stretch of literal text after the other. -/
def tokensOf (items : List Item) : List Token :=
  (items.splitBy Item.flows).flatMap stretchTokens

/-- A text with every opening brace doubled. -/
def escape (cs : List Char) : List Char := cs.flatMap fun c => if c = '{' then ['{', '{'] else [c]

/-- The number of bytes that items take. -/
def bytes (items : List Item) : ℕ := String.utf8Len (spell items)

@[simp] theorem spell_nil : spell [] = [] := rfl

@[simp] theorem spell_cons (i : Item) (items : List Item) :
    spell (i :: items) = i.spelling ++ spell items := by
  simp [spell]

@[simp] theorem spell_append (items items' : List Item) :
    spell (items ++ items') = spell items ++ spell items' := by
  simp [spell]

section Unambiguous

/-- No item can be read at the start of the text. -/
def Stuck (cs : List Char) : Prop := ∀ (i : Item) (rest : List Char), cs ≠ i.spelling ++ rest

theorem append_cons_inj {c : Char} {l m x y : List Char} (hl : c ∉ l) (hm : c ∉ m)
    (h : l ++ c :: x = m ++ c :: y) : l = m ∧ x = y := by
  induction l generalizing m with
  | nil =>
    cases m with
    | nil => simpa using h
    | cons d m =>
      obtain ⟨rfl, _⟩ := List.cons.inj h
      simp at hm
  | cons d l ih =>
    cases m with
    | nil =>
      obtain ⟨rfl, _⟩ := List.cons.inj h
      simp at hl
    | cons e m =>
      obtain ⟨rfl, htail⟩ := List.cons.inj h
      obtain ⟨rfl, hxy⟩ := ih (fun hc => hl (by simp [hc])) (fun hc => hm (by simp [hc])) htail
      exact ⟨rfl, hxy⟩

theorem IsTagBody.head_ne {body x : List Char} (h : IsTagBody body) {c : Char} {y : List Char}
    (heq : body ++ x = c :: y) : c ≠ '{' ∧ c ≠ '}' := by
  obtain ⟨hne, hhead, hclose⟩ := h
  cases body with
  | nil => contradiction
  | cons d body =>
    obtain ⟨rfl, _⟩ := List.cons.inj heq
    exact ⟨by simpa using hhead, fun hd => hclose (by simp [hd])⟩

/-- No item is spelled like the beginning of another. -/
theorem Item.spelling_append_inj {a b : Item} {x y : List Char}
    (h : a.spelling ++ x = b.spelling ++ y) : a = b ∧ x = y := by
  cases a with
  | newline =>
    cases b with
    | newline => simpa [spelling] using h
    | brace => simp [spelling] at h
    | tag body hbody => simp [spelling] at h
    | plain c hc => simp [spelling, hc.2.symm] at h
  | brace =>
    cases b with
    | newline => simp [spelling] at h
    | brace => simpa [spelling] using h
    | tag body hbody =>
      simp only [spelling, List.cons_append, List.append_assoc, List.cons.injEq, true_and] at h
      exact absurd rfl (hbody.head_ne h.symm).1
    | plain c hc => simp [spelling, hc.1.symm] at h
  | tag body hbody =>
    cases b with
    | newline => simp [spelling] at h
    | brace =>
      simp only [spelling, List.cons_append, List.append_assoc, List.cons.injEq, true_and] at h
      exact absurd rfl (hbody.head_ne h).1
    | tag body' hbody' =>
      simp only [spelling, List.cons_append, List.append_assoc, List.cons.injEq, true_and,
        List.nil_append] at h
      obtain ⟨rfl, rfl⟩ := append_cons_inj hbody.2.2 hbody'.2.2 h
      exact ⟨rfl, rfl⟩
    | plain c hc => simp [spelling, hc.1.symm] at h
  | plain c hc =>
    cases b with
    | newline => simp [spelling, hc.2] at h
    | brace => simp [spelling, hc.1] at h
    | tag body hbody => simp [spelling, hc.1] at h
    | plain d hd => simpa [spelling] using h

theorem stuck_iff {cs : List Char} : Stuck cs ↔
    cs = [] ∨ (∃ rest, cs = '{' :: '}' :: rest) ∨
      ∃ rest, cs = '{' :: rest ∧ rest.head? ≠ some '{' ∧ '}' ∉ rest := by
  constructor
  · intro h
    cases cs with
    | nil => exact .inl rfl
    | cons c rest =>
      by_cases hc : c = '{'
      · subst hc
        refine .inr ?_
        have hhead : rest.head? ≠ some '{' := by
          intro hhead
          obtain ⟨tail, rfl⟩ := List.head?_eq_some_iff.mp hhead
          exact h .brace tail rfl
        by_cases hclose : '}' ∈ rest
        · obtain ⟨body, tail, rfl, hbody⟩ := List.eq_append_cons_of_mem hclose
          cases body with
          | nil => exact .inl ⟨tail, rfl⟩
          | cons d body =>
            exact absurd (by simp [Item.spelling])
              (h (.tag (d :: body) ⟨by simp, by simpa using hhead, hbody⟩) tail)
        · exact .inr ⟨rest, rfl, hhead, hclose⟩
      · by_cases hn : c = '\n'
        · exact absurd (by simp [Item.spelling, hn]) (h .newline rest)
        · exact absurd rfl (h (.plain c ⟨hc, hn⟩) rest)
  · rintro (rfl | ⟨rest, rfl⟩ | ⟨rest, rfl, hhead, hclose⟩) i tail h
    · cases i <;> simp [Item.spelling] at h
    · cases i with
      | newline => simp [Item.spelling] at h
      | brace => simp [Item.spelling] at h
      | tag body hbody =>
        simp only [Item.spelling, List.cons_append, List.append_assoc, List.cons.injEq,
          true_and] at h
        exact (hbody.head_ne h.symm).2 rfl
      | plain c hc => exact hc.1 (List.cons.inj h).1.symm
    · cases i with
      | newline => simp [Item.spelling] at h
      | brace =>
        obtain ⟨_, rfl⟩ := List.cons.inj h
        simp at hhead
      | tag body hbody =>
        obtain ⟨_, rfl⟩ := List.cons.inj h
        simp at hclose
      | plain c hc => exact hc.1 (List.cons.inj h).1.symm

/-- A text splits in one way into items and a rest at which no item can be read. -/
theorem spell_append_inj {items items' : List Item} {x y : List Char} (hx : Stuck x)
    (hy : Stuck y) (h : spell items ++ x = spell items' ++ y) : items = items' ∧ x = y := by
  induction items generalizing items' with
  | nil =>
    cases items' with
    | nil => exact ⟨rfl, h⟩
    | cons i items' =>
      rw [spell_nil, List.nil_append, spell_cons, List.append_assoc] at h
      exact absurd h (hx i _)
  | cons i items ih =>
    cases items' with
    | nil =>
      rw [spell_nil, List.nil_append, spell_cons, List.append_assoc] at h
      exact absurd h.symm (hy i _)
    | cons j items' =>
      rw [spell_cons, spell_cons, List.append_assoc, List.append_assoc] at h
      obtain ⟨rfl, htail⟩ := Item.spelling_append_inj h
      obtain ⟨rfl, hxy⟩ := ih htail
      exact ⟨rfl, hxy⟩

theorem spell_injective : Function.Injective spell := fun items items' h =>
  (spell_append_inj (x := []) (y := []) (stuck_iff.mpr (.inl rfl)) (stuck_iff.mpr (.inl rfl))
    (by rw [h])).1

end Unambiguous

section Tokens

theorem tokensOf_append {l m : List Item}
    (h : ∀ i ∈ l.getLast?, ∀ j ∈ m.head?, i.flows j = false) :
    tokensOf (l ++ m) = tokensOf l ++ tokensOf m := by
  rw [tokensOf, List.splitBy_append h, List.flatMap_append]
  rfl

theorem isChain_literal {stretch : List Item} (h : ∀ i ∈ stretch, i.literal?.isSome = true) :
    stretch.IsChain fun a b => a.flows b = true := by
  refine List.Pairwise.isChain (List.pairwise_of_forall_mem_list ?_)
  intro a ha b hb
  simp [Item.flows, h a ha, h b hb]

theorem stretchTokens_literal {stretch : List Item}
    (h : ∀ i ∈ stretch, i.literal?.isSome = true) :
    stretchTokens stretch = Group.expand (literalText stretch) := by
  cases stretch with
  | nil => rfl
  | cons i stretch =>
    cases i with
    | newline => simpa [Item.literal?] using h .newline (by simp)
    | tag body hbody => simpa [Item.literal?] using h (.tag body hbody) (by simp)
    | brace => rfl
    | plain c hc => rfl

/-- Items of literal text are one stretch. -/
theorem tokensOf_literal {stretch : List Item} (h : ∀ i ∈ stretch, i.literal?.isSome = true) :
    tokensOf stretch = Group.expand (literalText stretch) := by
  by_cases hne : stretch = []
  · rw [hne]
    rfl
  · rw [tokensOf, List.splitBy_of_isChain hne (isChain_literal h), List.flatMap_singleton,
      stretchTokens_literal h]

/-- Text without newlines can be written as literal text. -/
theorem exists_literal {cs : List Char} (h : '\n' ∉ cs) :
    ∃ items : List Item, (∀ i ∈ items, i.literal?.isSome = true) ∧ spell items = escape cs ∧
      literalText items = cs := by
  induction cs with
  | nil => exact ⟨[], by simp, rfl, rfl⟩
  | cons c cs ih =>
    obtain ⟨items, hlit, hspell, htext⟩ := ih fun hn => h (by simp [hn])
    by_cases hc : c = '{'
    · refine ⟨.brace :: items, by simpa [Item.literal?] using hlit, ?_, ?_⟩
      · simp [Item.spelling, hspell, escape, hc]
      · rw [hc, ← htext]
        rfl
    · have hplain : c ≠ '{' ∧ c ≠ '\n' := ⟨hc, fun hn => h (by simp [hn])⟩
      refine ⟨.plain c hplain :: items, by simpa [Item.literal?] using hlit, ?_, ?_⟩
      · simp [Item.spelling, hspell, escape, hc]
      · rw [← htext]
        rfl

theorem escape_of_not_mem {cs : List Char} (h : '{' ∉ cs) : escape cs = cs := by
  induction cs with
  | nil => rfl
  | cons c cs ih =>
    have hc : c ≠ '{' := fun hc => h (by simp [hc])
    have hrest := ih fun hb => h (by simp [hb])
    rw [escape] at hrest ⊢
    rw [List.flatMap_cons, if_neg hc, hrest]
    rfl

theorem Group.foldl_step_outside {cs : List Char} (h : Group.openBracket ∉ cs)
    (literal : List Char) (ts : List Token) :
    cs.foldl Group.Scan.step ⟨.outside, literal, ts⟩ = ⟨.outside, cs.reverse ++ literal, ts⟩ := by
  induction cs generalizing literal with
  | nil => rfl
  | cons c cs ih =>
    have hc : c ≠ Group.openBracket := fun hc => h (by simp [hc])
    rw [List.foldl_cons, Group.Scan.step, if_neg hc]
    dsimp only
    rw [ih fun hb => h (by simp [hb])]
    simp

/-- Text without an opening bracket is one token. -/
theorem Group.expand_of_not_mem {cs : List Char} (h : Group.openBracket ∉ cs) :
    Group.expand cs = Token.consText cs [] := by
  have hscan : (cs.foldl Group.Scan.step .start).abandon.flush =
      ⟨.outside, [], Token.consText cs []⟩ := by
    rw [Group.Scan.start, Group.foldl_step_outside h]
    simp [Group.Scan.abandon, Group.Scan.flush, Group.Progress.spelling]
  rw [Group.expand, hscan, Token.consText]
  split_ifs <;> rfl

end Tokens

end Typeset.Markup
