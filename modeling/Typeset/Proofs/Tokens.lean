import Typeset.Proofs.Grammar

/-!
# What reading gives

Between two characters the reader stands behind some items and in at most one tag that may still
be closed; its literal text and its tokens are those of the items. At the end of the text this
gives the tokens of a text that is spelled by items, and the fault of any other.
-/

namespace Typeset.Markup

/-- The characters of the tag under way. -/
def Mode.opening : Mode → List Char
  | .text => []
  | .opened _ => ['{']
  | .tag _ body => '{' :: body.reverse

/-- Whether the tag under way began at byte `n` and may still be closed. -/
def Mode.BeganAt (n : ℕ) : Mode → Prop
  | .text => True
  | .opened start => start = n
  | .tag start body => start = n ∧ IsTagBody body.reverse

namespace Reader

/-- The literal text not yet handed out is the last stretch of the items, and the tokens are those
of the items before it. -/
def Holds (items : List Item) (r : Reader) : Prop :=
  ∃ done stretch, items = done ++ stretch ∧ (∀ i ∈ done.getLast?, i.literal? = none) ∧
    (∀ i ∈ stretch, i.literal?.isSome = true) ∧ r.literal.reverse = literalText stretch ∧
    r.tokens.reverse = tokensOf done

/-- The reader after the characters `cs`, which spell items and the tag under way. -/
structure Stands (cs : List Char) (items : List Item) (r : Reader) : Prop where
  offset : r.offset = String.utf8Len cs
  spelled : cs = spell items ++ r.mode.opening
  began : r.mode.BeganAt (bytes items)
  holds : r.Holds items

variable {r : Reader} {items : List Item} {cs : List Char}

theorem Holds.tokens_flush (h : r.Holds items) : r.flush.tokens.reverse = tokensOf items := by
  obtain ⟨done, stretch, rfl, hdone, hstretch, hliteral, htokens⟩ := h
  rw [tokensOf_append fun i hi j _ => by simp [Item.flows, hdone i hi],
    tokensOf_literal hstretch, flush, List.reverse_append, List.reverse_reverse, htokens, hliteral]

theorem Holds.keep {i : Item} {c : Char} (h : r.Holds items) (hi : i.literal? = some c) :
    (r.keep c).Holds (items ++ [i]) := by
  obtain ⟨done, stretch, rfl, hdone, hstretch, hliteral, htokens⟩ := h
  refine ⟨done, stretch ++ [i], by simp, hdone, ?_, ?_, htokens⟩
  · intro j hj
    rcases List.mem_append.mp hj with hj | hj
    · exact hstretch j hj
    · obtain rfl := List.mem_singleton.mp hj
      simp [hi]
  · simpa [Reader.keep, literalText, hi] using hliteral

theorem Holds.push {i : Item} {t : Token} (h : r.Holds items) (hi : i.literal? = none)
    (ht : tokensOf [i] = [t]) : (r.push t).Holds (items ++ [i]) := by
  refine ⟨items ++ [i], [], by simp, by simpa using hi, by simp, rfl, ?_⟩
  rw [tokensOf_append fun j _ k hk => ?_, ht, ← h.tokens_flush]
  · simp [Reader.push]
  · obtain rfl : i = k := by simpa using hk
    simp [Item.flows, hi]

theorem stands_start : start.Stands [] [] :=
  ⟨rfl, rfl, trivial, [], [], rfl, by simp, by simp, rfl, rfl⟩

theorem step_eq {s : Reader} {c : Char} (h : r.read c = .ok s) :
    r.step c = .ok { s with offset := r.offset + c.utf8Size } := by
  rw [Reader.step, h]
  rfl

theorem Stands.offset_succ (h : r.Stands cs items) (c : Char) :
    r.offset + c.utf8Size = String.utf8Len (cs ++ [c]) := by
  simp [h.offset]

/-- A character of literal text, a newline, or the brace that begins a tag. -/
theorem Stands.step_text (h : r.Stands cs items) (hmode : r.mode = .text) (c : Char) :
    ∃ items' r', r.step c = .ok r' ∧ r'.Stands (cs ++ [c]) items' := by
  have hcs : cs = spell items := by simpa [hmode, Mode.opening] using h.spelled
  by_cases hn : c = '\n'
  · refine ⟨items ++ [.newline], _, step_eq (s := r.push .paragraphEnd) ?_, ?_⟩
    · simp [read, hmode, hn]
    · exact ⟨h.offset_succ c, by simp [hcs, hn, Item.spelling, Reader.push, Mode.opening], trivial,
        h.holds.push rfl rfl⟩
  by_cases hb : c = '{'
  · refine ⟨items, _, step_eq (s := { r with mode := .opened r.offset }) ?_, ?_⟩
    · simp [read, hmode, hb]
    · exact ⟨h.offset_succ c, by simp [hcs, hb, Mode.opening], by rw [h.offset, hcs]; rfl, h.holds⟩
  · refine ⟨items ++ [.plain c ⟨hb, hn⟩], _, step_eq (s := r.keep c) ?_, ?_⟩
    · simp [read, hmode, hb, hn]
    · exact ⟨h.offset_succ c, by simp [hcs, Item.spelling, Reader.keep, Mode.opening], trivial,
        h.holds.keep rfl⟩

/-- A second brace, the end of a tag that holds nothing, or the first character of a tag. -/
theorem Stands.step_opened {start : ℕ} (h : r.Stands cs items) (hmode : r.mode = .opened start)
    (c : Char) :
    (∃ items' r', r.step c = .ok r' ∧ r'.Stands (cs ++ [c]) items') ∨
      r.step c = .error (.emptyTag (bytes items)) ∧ cs ++ [c] = spell items ++ ['{', '}'] := by
  have hcs : cs = spell items ++ ['{'] := by simpa [hmode, Mode.opening] using h.spelled
  have hstart : start = bytes items := by simpa [hmode, Mode.BeganAt] using h.began
  by_cases hb : c = '{'
  · refine .inl ⟨items ++ [.brace], _, step_eq (s := r.keep c) ?_, ?_⟩
    · simp [read, hmode, hb]
    · exact ⟨h.offset_succ c, by simp [hcs, hb, Item.spelling, Reader.keep, Mode.opening], trivial,
        h.holds.keep (by rw [hb]; rfl)⟩
  by_cases he : c = '}'
  · refine .inr ⟨?_, by simp [hcs, he]⟩
    rw [Reader.step, read, hmode]
    simp [he, hstart, Except.map]
  · refine .inl ⟨items, _, step_eq (s := { r with mode := .tag start [c] }) ?_, ?_⟩
    · simp [read, hmode, hb, he]
    · exact ⟨h.offset_succ c, by simp [hcs, Mode.opening],
        ⟨hstart, by simp, by simpa using hb, by simpa using Ne.symm he⟩, h.holds⟩

/-- The end of a tag, or one more of its characters. -/
theorem Stands.step_tag {start : ℕ} {body : List Char} (h : r.Stands cs items)
    (hmode : r.mode = .tag start body) (c : Char) :
    ∃ items' r', r.step c = .ok r' ∧ r'.Stands (cs ++ [c]) items' := by
  have hcs : cs = spell items ++ '{' :: body.reverse := by
    simpa [hmode, Mode.opening] using h.spelled
  obtain ⟨hstart, hbody⟩ : start = bytes items ∧ IsTagBody body.reverse := by
    simpa [hmode, Mode.BeganAt] using h.began
  by_cases he : c = '}'
  · refine ⟨items ++ [.tag body.reverse hbody], _,
      step_eq (s := r.push (.ofTag body.reverse)) ?_, ?_⟩
    · simp [read, hmode, he]
    · exact ⟨h.offset_succ c, by simp [hcs, he, Item.spelling, Reader.push, Mode.opening], trivial,
        h.holds.push rfl rfl⟩
  · refine ⟨items, _, step_eq (s := { r with mode := .tag start (c :: body) }) ?_, ?_⟩
    · simp [read, hmode, he]
    · obtain ⟨hne, hhead, hclose⟩ := hbody
      refine ⟨h.offset_succ c, by simp [hcs, Mode.opening], ⟨hstart, ?_⟩, h.holds⟩
      rw [List.reverse_cons]
      refine ⟨by simp, ?_, by simpa [Ne.symm he] using hclose⟩
      rwa [List.head?_append_of_ne_nil _ hne]

/-- One more character leaves the reader behind the items read with it, unless it closes a tag
that holds nothing. -/
theorem Stands.step (h : r.Stands cs items) (c : Char) :
    (∃ items' r', r.step c = .ok r' ∧ r'.Stands (cs ++ [c]) items') ∨
      r.step c = .error (.emptyTag (bytes items)) ∧ cs ++ [c] = spell items ++ ['{', '}'] := by
  cases hmode : r.mode with
  | text => exact .inl (h.step_text hmode c)
  | opened start => exact h.step_opened hmode c
  | tag start body => exact .inl (h.step_tag hmode c)

/-- After a whole run the reader stands behind items, or has met a tag that holds nothing. -/
theorem stands_run (cs : List Char) :
    (∃ items r, cs.foldlM Reader.step .start = .ok r ∧ r.Stands cs items) ∨
      ∃ items rest, cs.foldlM Reader.step .start = .error (.emptyTag (bytes items)) ∧
        cs = spell items ++ '{' :: '}' :: rest := by
  induction cs using List.reverseRecOn with
  | nil => exact .inl ⟨[], .start, rfl, stands_start⟩
  | append_singleton cs c ih =>
    have hrun : (cs ++ [c]).foldlM Reader.step .start =
        (cs.foldlM Reader.step .start).bind fun r => r.step c := by
      rw [List.foldlM_append]
      simp only [List.foldlM_cons, List.foldlM_nil, bind_pure]
      rfl
    rw [hrun]
    rcases ih with ⟨items, r, hr, h⟩ | ⟨items, rest, hr, hcs⟩
    · rw [hr]
      rcases h.step c with ⟨items', r', hstep, h'⟩ | ⟨hstep, hcs⟩
      · exact .inl ⟨items', r', hstep, h'⟩
      · exact .inr ⟨items, [], hstep, hcs⟩
    · rw [hr]
      exact .inr ⟨items, rest ++ [c], rfl, by simp [hcs]⟩

end Reader

section Tokenize

/-- The answer for items followed by a text at which no item can be read. -/
def verdict (items : List Item) : List Char → Except Fault (List Token)
  | [] => .ok (tokensOf items)
  | _ :: '}' :: _ => .error (.emptyTag (bytes items))
  | _ => .error (.unterminatedTag (bytes items))

theorem verdict_open (items : List Item) {rest : List Char} (h : '}' ∉ rest) :
    verdict items ('{' :: rest) = .error (.unterminatedTag (bytes items)) := by
  unfold verdict
  split
  · contradiction
  · rename_i heq
    obtain ⟨_, rfl⟩ := List.cons.inj heq
    simp at h
  · rfl

theorem stuck_opening {r : Reader} {n : ℕ} (h : r.mode.BeganAt n) : Stuck r.mode.opening := by
  rw [stuck_iff]
  cases hmode : r.mode with
  | text => exact .inl rfl
  | opened start => exact .inr (.inr ⟨[], rfl, by simp, by simp⟩)
  | tag start body =>
    rw [hmode] at h
    exact .inr (.inr ⟨body.reverse, rfl, h.2.2⟩)

theorem exists_verdict (s : String) : ∃ items rest, s.toList = spell items ++ rest ∧ Stuck rest ∧
    tokenize s = verdict items rest := by
  unfold tokenize
  rcases Reader.stands_run s.toList with ⟨items, r, hr, h⟩ | ⟨items, rest, hr, hcs⟩
  · rw [hr]
    refine ⟨items, r.mode.opening, h.spelled, stuck_opening h.began, ?_⟩
    have hbegan := h.began
    change r.finish = _
    unfold Reader.finish
    cases hmode : r.mode with
    | text =>
      dsimp only
      rw [h.holds.tokens_flush]
      rfl
    | opened start =>
      rw [hmode] at hbegan
      obtain rfl := hbegan
      rfl
    | tag start body =>
      rw [hmode] at hbegan
      obtain ⟨rfl, hbody⟩ := hbegan
      exact (verdict_open items hbody.2.2).symm
  · rw [hr]
    exact ⟨items, '{' :: '}' :: rest, hcs, stuck_iff.mpr (.inr (.inl ⟨rest, rfl⟩)), rfl⟩

theorem tokenize_eq_verdict {s : String} {items : List Item} {rest : List Char}
    (hs : s.toList = spell items ++ rest) (hrest : Stuck rest) :
    tokenize s = verdict items rest := by
  obtain ⟨items', rest', hs', hrest', hverdict⟩ := exists_verdict s
  obtain ⟨rfl, rfl⟩ := spell_append_inj hrest hrest' (hs.symm.trans hs')
  exact hverdict

theorem tokenize_spell {s : String} {items : List Item} (hs : spell items = s.toList) :
    tokenize s = .ok (tokensOf items) := by
  have hs' : s.toList = spell items ++ [] := by rw [hs, List.append_nil]
  exact tokenize_eq_verdict hs' (stuck_iff.mpr (.inl rfl))

theorem tokenize_ok_iff (s : String) (ts : List Token) :
    tokenize s = .ok ts ↔ ∃ items, spell items = s.toList ∧ tokensOf items = ts := by
  constructor
  · intro h
    obtain ⟨items, rest, hs, hrest, hverdict⟩ := exists_verdict s
    rw [h] at hverdict
    rcases stuck_iff.mp hrest with rfl | ⟨rest, rfl⟩ | ⟨rest, rfl, _, hclose⟩
    · exact ⟨items, by rw [hs, List.append_nil], (Except.ok.inj hverdict).symm⟩
    · cases hverdict
    · rw [verdict_open items hclose] at hverdict
      cases hverdict
  · rintro ⟨items, hs, rfl⟩
    exact tokenize_spell hs

/-- The items before a fault are a text of their own. -/
theorem exists_text (items : List Item) : ∃ p : String, p.toList = spell items ∧
    p.utf8ByteSize = bytes items ∧ ∃ ts, tokenize p = .ok ts := by
  have hp : (String.ofList (spell items)).toList = spell items := String.toList_ofList
  exact ⟨_, hp, String.utf8ByteSize_ofList _, _, tokenize_spell hp.symm⟩

theorem exists_items {p : String} (h : ∃ ts, tokenize p = .ok ts) :
    ∃ items, p.toList = spell items ∧ p.utf8ByteSize = bytes items := by
  obtain ⟨ts, hts⟩ := h
  obtain ⟨items, hp, _⟩ := (tokenize_ok_iff p ts).mp hts
  exact ⟨items, hp.symm, by rw [bytes, hp, String.utf8Len_toList]⟩

theorem tokenize_emptyTag_iff (s : String) (o : ℕ) : tokenize s = .error (.emptyTag o) ↔
    ∃ (p : String) (rest : List Char), s.toList = p.toList ++ '{' :: '}' :: rest ∧
      p.utf8ByteSize = o ∧ ∃ ts, tokenize p = .ok ts := by
  constructor
  · intro h
    obtain ⟨items, rest, hs, hrest, hverdict⟩ := exists_verdict s
    obtain ⟨p, hp, hbytes, hok⟩ := exists_text items
    rw [h] at hverdict
    rcases stuck_iff.mp hrest with rfl | ⟨rest, rfl⟩ | ⟨rest, rfl, _, hclose⟩
    · cases hverdict
    · cases hverdict
      exact ⟨p, rest, hp ▸ hs, hbytes, hok⟩
    · rw [verdict_open items hclose] at hverdict
      cases hverdict
  · rintro ⟨p, rest, hs, rfl, hok⟩
    obtain ⟨items, hp, hbytes⟩ := exists_items hok
    rw [hp] at hs
    rw [tokenize_eq_verdict hs (stuck_iff.mpr (.inr (.inl ⟨rest, rfl⟩))), hbytes]
    rfl

theorem tokenize_unterminatedTag_iff (s : String) (o : ℕ) :
    tokenize s = .error (.unterminatedTag o) ↔
      ∃ (p : String) (rest : List Char), s.toList = p.toList ++ '{' :: rest ∧
        p.utf8ByteSize = o ∧ (∃ ts, tokenize p = .ok ts) ∧ rest.head? ≠ some '{' ∧
          '}' ∉ rest := by
  constructor
  · intro h
    obtain ⟨items, rest, hs, hrest, hverdict⟩ := exists_verdict s
    obtain ⟨p, hp, hbytes, hok⟩ := exists_text items
    rw [h] at hverdict
    rcases stuck_iff.mp hrest with rfl | ⟨rest, rfl⟩ | ⟨rest, rfl, hhead, hclose⟩
    · cases hverdict
    · cases hverdict
    · rw [verdict_open items hclose] at hverdict
      cases hverdict
      exact ⟨p, rest, hp ▸ hs, hbytes, hok, hhead, hclose⟩
  · rintro ⟨p, rest, hs, rfl, hok, hhead, hclose⟩
    obtain ⟨items, hp, hbytes⟩ := exists_items hok
    rw [hp] at hs
    rw [tokenize_eq_verdict hs (stuck_iff.mpr (.inr (.inr ⟨rest, rfl, hhead, hclose⟩))),
      verdict_open items hclose, hbytes]

theorem tokenize_error_cases {s : String} {f : Fault} (h : tokenize s = .error f) :
    ∃ o, f = .emptyTag o ∨ f = .unterminatedTag o := by
  obtain ⟨items, rest, _, hrest, hverdict⟩ := exists_verdict s
  rw [h] at hverdict
  refine ⟨bytes items, ?_⟩
  rcases stuck_iff.mp hrest with rfl | ⟨rest, rfl⟩ | ⟨rest, rfl, _, hclose⟩
  · cases hverdict
  · exact .inl (Except.error.inj hverdict)
  · rw [verdict_open items hclose] at hverdict
    exact .inr (Except.error.inj hverdict)

theorem tokenize_unmarked {s : String} (hbrace : '{' ∉ s.toList) (hnewline : '\n' ∉ s.toList)
    (hbracket : Group.openBracket ∉ s.toList) :
    tokenize s = .ok (if s = "" then [] else [⟨.text, s⟩]) := by
  obtain ⟨items, hlit, hspell, htext⟩ := exists_literal hnewline
  rw [escape_of_not_mem hbrace] at hspell
  rw [tokenize_spell hspell, tokensOf_literal hlit, htext, Group.expand_of_not_mem hbracket,
    Token.consText, Token.ofText, String.ofList_toList]
  by_cases hs : s = ""
  · simp [hs]
  · simp [hs]

/-- Reading follows the grammar of markup. -/
structure FollowsGrammar (s : String) : Prop where
  ok_iff : ∀ ts, tokenize s = .ok ts ↔ ∃ items, spell items = s.toList ∧ tokensOf items = ts
  unambiguous : ∀ items items', spell items = s.toList → spell items' = s.toList → items = items'
  /-- Text without markup is one token. -/
  unmarked : '{' ∉ s.toList → '\n' ∉ s.toList → Group.openBracket ∉ s.toList →
    tokenize s = .ok (if s = "" then [] else [⟨.text, s⟩])
  emptyTag_iff : ∀ o, tokenize s = .error (.emptyTag o) ↔
    ∃ (p : String) (rest : List Char), s.toList = p.toList ++ '{' :: '}' :: rest ∧
      p.utf8ByteSize = o ∧ ∃ ts, tokenize p = .ok ts
  unterminatedTag_iff : ∀ o, tokenize s = .error (.unterminatedTag o) ↔
    ∃ (p : String) (rest : List Char), s.toList = p.toList ++ '{' :: rest ∧
      p.utf8ByteSize = o ∧ (∃ ts, tokenize p = .ok ts) ∧ rest.head? ≠ some '{' ∧ '}' ∉ rest
  error_cases : ∀ f, tokenize s = .error f → ∃ o, f = .emptyTag o ∨ f = .unterminatedTag o

theorem tokenize_followsGrammar (s : String) : FollowsGrammar s where
  ok_iff := tokenize_ok_iff s
  unambiguous _ _ h h' := spell_injective (h.trans h'.symm)
  unmarked := tokenize_unmarked
  emptyTag_iff := tokenize_emptyTag_iff s
  unterminatedTag_iff := tokenize_unterminatedTag_iff s
  error_cases _ := tokenize_error_cases

/-- Behind a doubled brace and a tag, the tag left open is found at its byte. -/
example : tokenize "\x7b\x7b\x7b【\x7d é\x7b" = .error (.unterminatedTag 10) := by
  decide +kernel

end Tokenize

end Typeset.Markup
