import Pseudocode.Proofs.Embedding
import Pseudocode.Proofs.Scanning

/-!
# Quotes and text literals

The text literals of a source are found by counting its quotes. Every quote with an odd
number begins a literal and the next one ends it, wherever they stand: no word, bracket
or ignored character takes a quote in, and a line feed between two quotes is part of the
literal. When the number of quotes is odd there are no tokens, and the error is about the
last quote.
-/
namespace Pseudocode

def Token.Kind.content? : Token.Kind → Option String
  | text content => some content
  | arrow | less | argumentsOpen | argumentsClose | blockOpen _ | blockClose | lambda
  | operation _ | number _ | identifier _ => none

def Layout.texts (s : Layout) : List String := s.kinds.filterMap Token.Kind.content?

namespace Lexeme

theorem closed_iff_quotesPaired {cs : List Char} :
    (∀ l ∈ all cs, ∀ content, l ≠ unclosed content) ↔ QuotesPaired cs := by
  constructor
  · intro hclosed
    have hcount := count_quote_flatMap_chars fun l hl => ⟨proper_of_mem_all hl, hclosed l hl⟩
    rw [flatMap_chars_all] at hcount
    unfold QuotesPaired
    omega
  · intro h l hl content
    exact ne_unclosed_of_quotesPaired h hl content

section
variable {before content : List Char} (hb : QuotesPaired before) (hc : '"' ∉ content)
include hb hc

/-- The last quote, when an even number of quotes stands before it. -/
theorem all_last_quote : all (before ++ '"' :: content) = all before ++ [unclosed content] := by
  have hcut : cut '"' content = (unclosed content, []) := cutQuoted_of_not_mem hc
  rw [all_append (apart_cons.2 (by decide)) before (closed_iff_quotesPaired.2 hb), all_cons, hcut,
    all_nil]

/-- A quote with a partner, when an even number of quotes stands before it. -/
theorem all_literal (rest : List Char) :
    all (before ++ '"' :: (content ++ '"' :: rest)) = all before ++ quoted content :: all rest := by
  have hcut : cut '"' (content ++ '"' :: rest) = (quoted content, rest) := cutQuoted_append hc rest
  rw [all_append (apart_cons.2 (by decide)) before (closed_iff_quotesPaired.2 hb), all_cons, hcut]

end

theorem length_contents {cs : List Char} (h : QuotesPaired cs) :
    cs.count '"' = 2 * ((all cs).filterMap content?).length := by
  have hcount := count_quote_flatMap_chars fun l hl =>
    ⟨proper_of_mem_all hl, ne_unclosed_of_quotesPaired h hl⟩
  rwa [flatMap_chars_all] at hcount

theorem eq_quoted_of_content? {l : Lexeme} {content : List Char} (h : l.content? = some content) :
    l = quoted content := by
  cases l with
  | quoted other => exact congrArg quoted (Option.some.inj h)
  | _ => cases h

/-- The lexeme of the `k`-th literal has `k` literals before it. -/
theorem exists_split_of_getElem? {ls : List Lexeme} {k : Nat} {content : List Char}
    (h : (ls.filterMap content?)[k]? = some content) :
    ∃ front back, ls = front ++ quoted content :: back ∧
      (front.filterMap content?).length = k := by
  obtain ⟨hk, hget⟩ := List.getElem?_eq_some_iff.1 h
  have hsplit : ls.filterMap content? = (ls.filterMap content?).take k ++
      content :: (ls.filterMap content?).drop (k + 1) := by
    rw [← hget, ← List.drop_eq_getElem_cons hk, List.take_append_drop]
  obtain ⟨front, tail, rfl, hfront, htail⟩ := List.filterMap_eq_append_iff.1 hsplit
  obtain ⟨silent, l, back, rfl, hsilent, hl, -⟩ := List.filterMap_eq_cons_iff.1 htail
  refine ⟨front ++ silent, back, ?_, ?_⟩
  · rw [eq_quoted_of_content? hl, List.append_assoc]
  · rw [List.filterMap_append, List.filterMap_eq_nil_iff.2 hsilent, List.append_nil, hfront,
      List.length_take]
    omega

/-- The `k`-th literal stands between two quotes that have `2 * k` quotes before them. -/
theorem getElem?_contents {cs content : List Char} (h : QuotesPaired cs) (k : Nat) :
    ((all cs).filterMap content?)[k]? = some content ↔
      ∃ before rest, cs = before ++ '"' :: (content ++ '"' :: rest) ∧
        before.count '"' = 2 * k ∧ '"' ∉ content := by
  constructor
  · intro hk
    obtain ⟨front, back, hall, hlength⟩ := exists_split_of_getElem? hk
    have hfront : ∀ l ∈ front, l.Proper ∧ ∀ content, l ≠ unclosed content := by
      intro l hl
      have hmem : l ∈ all cs := hall ▸ List.mem_append_left _ hl
      exact ⟨proper_of_mem_all hmem, ne_unclosed_of_quotesPaired h hmem⟩
    have hquoted : quoted content ∈ all cs :=
      hall ▸ List.mem_append_right front List.mem_cons_self
    refine ⟨front.flatMap chars, back.flatMap chars, ?_, ?_, proper_of_mem_all hquoted⟩
    · have htext := flatMap_chars_all cs
      rw [hall] at htext
      rw [← htext]
      simp [chars]
    · rw [count_quote_flatMap_chars hfront, hlength]
  · rintro ⟨before, rest, rfl, hcount, hcontent⟩
    have hbefore : QuotesPaired before := by
      unfold QuotesPaired
      omega
    have hlength := length_contents hbefore
    have hk : k = ((all before).filterMap content?).length := by omega
    rw [all_literal hbefore hcontent, List.filterMap_append, hk]
    simp [content?]

end Lexeme

theorem Token.Kind.content?_ofWord (word : List Char) : (ofWord word).content? = none := by
  unfold ofWord
  dsimp only
  repeat' split
  all_goals rfl

theorem Lexeme.content?_of_kind? {l : Lexeme} {kind : Token.Kind} (h : l.kind? = some kind) :
    kind.content? = l.content?.map String.ofList := by
  cases l with
  | word content =>
      rw [← Option.some.inj h, Token.Kind.content?_ofWord]
      rfl
  | newline | blank c | ignored c | unclosed content => cases h
  | _ =>
      rw [← Option.some.inj h]
      rfl

theorem ReadFrom.contents {ls : List (Position × Lexeme)} {tokens : List Token}
    (h : ReadFrom ls tokens) :
    tokens.filterMap (fun t => t.kind.content?) =
      (ls.filterMap fun segment => segment.2.content?).map String.ofList := by
  induction h with
  | nil => rfl
  | @token p l kind ls tokens hk _ ih =>
      rw [List.filterMap_cons, List.filterMap_cons, Lexeme.content?_of_kind? hk, ih]
      cases l.content? <;> rfl
  | @silent p l ls tokens hk _ ih =>
      have hnone : l.content? = none := by
        cases l with
        | quoted content => cases hk
        | _ => rfl
      simp only [ih, List.filterMap_cons, hnone]
  | @wrap t ls tokens hw _ ih =>
      have hnone : t.kind.content? = none := by
        rcases hw with hw | hw <;> rw [hw] <;> rfl
      simp only [ih, List.filterMap_cons, hnone]

theorem Lexeme.filterMap_place {α : Type} (f : Lexeme → Option α) (p : Position)
    (ls : List Lexeme) : (place p ls).filterMap (fun segment => f segment.2) = ls.filterMap f := by
  induction ls generalizing p with
  | nil => rfl
  | cons l ls ih => rw [place, List.filterMap_cons, List.filterMap_cons, ih]

theorem Layout.texts_ofSource (cs : List Char) :
    (ofSource cs).texts = ((Lexeme.all cs).filterMap Lexeme.content?).map String.ofList := by
  have hread := (tells_ofSource cs).read.contents
  rw [Lexeme.filterMap_place] at hread
  rw [← hread, texts, kinds, List.filterMap_map]
  rfl

theorem Lexeme.place_append (p : Position) (ls more : List Lexeme) :
    place p (ls ++ more) = place p ls ++ place (p.advance (ls.flatMap chars)) more := by
  induction ls generalizing p with
  | nil => rfl
  | cons l ls ih =>
      rw [List.cons_append, place, ih, place, List.flatMap_cons, Position.advance_append]
      rfl

theorem tokenize_last_quote {source : String} {before rest : List Char}
    (hsource : source.toList = before ++ '"' :: rest) (hb : QuotesPaired before)
    (hr : '"' ∉ rest) : tokenize source = .error (.unterminatedText (.after before)) := by
  have hplace : Lexeme.place .start (Lexeme.all source.toList) =
      Lexeme.place .start (Lexeme.all before) ++ [(.after before, .unclosed rest)] := by
    rw [hsource, Lexeme.all_last_quote hb hr, Lexeme.place_append, Lexeme.flatMap_chars_all,
      Position.advance_start]
    rfl
  simp only [tokenize, hplace, List.findSome?_append]
  rw [List.findSome?_eq_none_iff.2]
  · rfl
  · rintro ⟨p, l⟩ hl
    cases l with
    | unclosed content =>
        have hmem := Lexeme.mem_of_mem_place hl
        exact absurd rfl (Lexeme.ne_unclosed_of_quotesPaired hb hmem content)
    | _ => rfl

theorem exists_last_quote {cs : List Char} (h : cs.count '"' % 2 = 1) :
    ∃ before rest, cs = before ++ '"' :: rest ∧ '"' ∉ rest ∧ QuotesPaired before := by
  have hmem : '"' ∈ cs.reverse := by
    rw [← List.count_pos_iff, List.count_reverse]
    omega
  obtain ⟨rest, before, hsplit, hrest⟩ := List.eq_append_cons_of_mem hmem
  have hcs : cs = before.reverse ++ '"' :: rest.reverse := by
    rw [← List.reverse_reverse cs, hsplit]
    simp
  have hlast : '"' ∉ rest.reverse := by rwa [List.mem_reverse]
  refine ⟨before.reverse, rest.reverse, hcs, hlast, ?_⟩
  rw [hcs, List.count_append, List.count_cons_self, List.count_eq_zero.2 hlast] at h
  unfold QuotesPaired
  omega

/-- The number of quotes decides. When it is odd, the only error there is stands at the last
quote. When it is even, there are tokens, and the `k`-th text literal is what stands between the
quotes with the numbers `2 * k + 1` and `2 * k + 2`. -/
theorem quotes_decide_literals (source : String) :
    ((∃ p, tokenize source = .error (.unterminatedText p)) ↔ source.toList.count '"' % 2 = 1) ∧
    (∀ e, tokenize source = .error e → ∃ before rest, source.toList = before ++ '"' :: rest ∧
      '"' ∉ rest ∧ e = .unterminatedText (.after before)) ∧
    (source.toList.count '"' % 2 = 0 → ∃ layout, tokenize source = .ok layout ∧
      ∀ k text, layout.texts[k]? = some text ↔
        ∃ before content rest, source.toList = before ++ '"' :: (content ++ '"' :: rest) ∧
          before.count '"' = 2 * k ∧ '"' ∉ content ∧ text = String.ofList content) := by
  have hodd : source.toList.count '"' % 2 = 1 → ∃ before rest,
      source.toList = before ++ '"' :: rest ∧ '"' ∉ rest ∧
        tokenize source = .error (.unterminatedText (.after before)) := by
    intro h
    obtain ⟨before, rest, hsource, hrest, hbefore⟩ := exists_last_quote h
    exact ⟨before, rest, hsource, hrest, tokenize_last_quote hsource hbefore hrest⟩
  have hfails : ∀ e, tokenize source = .error e → source.toList.count '"' % 2 = 1 := by
    intro e he
    by_contra heven
    have hpaired : QuotesPaired source.toList := by
      unfold QuotesPaired
      omega
    rw [tokenize_of_quotesPaired hpaired] at he
    cases he
  refine ⟨⟨?_, ?_⟩, ?_, ?_⟩
  · rintro ⟨p, hp⟩
    exact hfails _ hp
  · intro h
    obtain ⟨before, rest, -, -, htokens⟩ := hodd h
    exact ⟨_, htokens⟩
  · intro e he
    obtain ⟨before, rest, hsource, hrest, htokens⟩ := hodd (hfails e he)
    rw [htokens] at he
    exact ⟨before, rest, hsource, hrest, (Except.error.inj he).symm⟩
  · intro heven
    refine ⟨_, tokenize_of_quotesPaired heven, fun k text => ?_⟩
    rw [Layout.texts_ofSource, List.getElem?_map, Option.map_eq_some_iff]
    constructor
    · rintro ⟨content, hk, rfl⟩
      obtain ⟨before, rest, hsource, hcount, hcontent⟩ := (Lexeme.getElem?_contents heven k).1 hk
      exact ⟨before, content, rest, hsource, hcount, hcontent, rfl⟩
    · rintro ⟨before, content, rest, hsource, hcount, hcontent, rfl⟩
      have hat := (Lexeme.getElem?_contents heven k).2 ⟨before, rest, hsource, hcount, hcontent⟩
      exact ⟨content, hat, rfl⟩

end Pseudocode
