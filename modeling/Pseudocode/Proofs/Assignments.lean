import Pseudocode.Proofs.Composition

/-!
# The right-hand side of an assignment

An arrow takes the rest of its line. When that rest is a text of one line, its layout is
that of the text on its own: the frame of the right-hand side lies where the frame of the
line would, and nothing in the text ends it. With nothing behind the arrow the frame is
empty and leaves no trace, and the parser misses an operand.
-/
namespace Pseudocode

/-- No line ends outside of quotes and outside of all brackets. -/
def OneLine (source : String) : Prop :=
  ∀ front back, source.toList = front ++ '\n' :: back → QuotesPaired front →
    Mark.scan [] (skeleton front) ≠ some []

theorem oneLine_iff (source : String) : OneLine source ↔
    ∀ i < source.toList.length, source.toList[i]? = some '\n' →
      QuotesPaired (source.toList.take i) →
      Mark.scan [] (skeleton (source.toList.take i)) ≠ some [] := by
  constructor
  · intro h i _ hi
    obtain ⟨hlt, hget⟩ := List.getElem?_eq_some_iff.1 hi
    apply h (source.toList.take i) (source.toList.drop (i + 1))
    rw [← hget, ← List.drop_eq_getElem_cons hlt, List.take_append_drop]
  · intro h front back hsplit
    have hfront : source.toList.take front.length = front := by rw [hsplit, List.take_left]
    have hi := h front.length (by rw [hsplit]; simp) (by rw [hsplit]; simp)
    rwa [hfront] at hi

instance (source : String) : Decidable (OneLine source) :=
  decidable_of_iff' _ (oneLine_iff source)

namespace Lexeme

section
variable {ls : List Lexeme} (h : ∀ l ∈ ls, l.Proper ∧ ∀ content, l ≠ unclosed content)
include h

theorem skeleton_flatMap_chars : skeleton (ls.flatMap chars) = ls.filterMap mark? := by
  induction ls with
  | nil => rfl
  | cons l ls ih =>
      obtain ⟨⟨hproper, hclosed⟩, hls⟩ := List.forall_mem_cons.1 h
      have hcons := skeletonFrom_chars hproper hclosed (ls.flatMap chars)
      rw [List.flatMap_cons, skeleton, hcons, ← skeleton, ih hls, List.filterMap_cons]
      cases l.mark? <;> rfl

theorem quotesPaired_flatMap_chars : QuotesPaired (ls.flatMap chars) := by
  have hcount := count_quote_flatMap_chars h
  unfold QuotesPaired
  omega

end

/-- A name and an arrow in front of a text. -/
theorem all_assignment {word : List Char} (hw : IsWord word) (cs : List Char) :
    all (word ++ ' ' :: '<' :: '-' :: ' ' :: cs) =
      .word word :: .blank ' ' :: .arrow :: .blank ' ' :: all cs := by
  have hblank : ∀ rest, all (' ' :: rest) = .blank ' ' :: all rest := by
    intro rest
    exact all_chars_append (l := .blank ' ') rfl (by simp) (by simp)
  have hword : all (word ++ ' ' :: '<' :: '-' :: ' ' :: cs) =
      .word word :: all (' ' :: '<' :: '-' :: ' ' :: cs) := by
    refine all_chars_append (l := .word word) hw ?_ (by simp)
    rintro _ - d ⟨⟩
    decide
  have harrow : all ('<' :: '-' :: ' ' :: cs) = .arrow :: all (' ' :: cs) :=
    all_chars_append (l := .arrow) trivial (by simp) (by simp)
  rw [hword, hblank, harrow, hblank]

end Lexeme

theorem OneLine.scan_of_newline {source : String} (h : OneLine source) (hb : Balanced source)
    {front back : List Lexeme} (hall : Lexeme.all source.toList = front ++ .newline :: back) :
    Mark.scan [] (front.filterMap Lexeme.mark?) ≠ some [] := by
  have hfront : ∀ l ∈ front, l.Proper ∧ ∀ content, l ≠ .unclosed content := by
    intro l hl
    have hmem : l ∈ Lexeme.all source.toList := hall ▸ List.mem_append_left _ hl
    exact ⟨Lexeme.proper_of_mem_all hmem, hb.closed l hmem⟩
  have hchars : source.toList =
      front.flatMap Lexeme.chars ++ '\n' :: back.flatMap Lexeme.chars := by
    rw [← Lexeme.flatMap_chars_all source.toList, hall, List.flatMap_append, List.flatMap_cons]
    rfl
  rw [← Lexeme.skeleton_flatMap_chars hfront]
  exact h _ _ hchars (Lexeme.quotesPaired_flatMap_chars hfront)

namespace Layout

def assigning (word : List Char) : Layout :=
  start.lay .start [.word word, .blank ' ', .arrow, .blank ' ']

theorem embedded_assigning {name : String}
    (hname : Token.Kind.ofWord name.toList = .identifier name) :
    Embedded [.blockOpen false, .identifier name, .arrow] [⟨.statement, 1⟩]
      [⟨.arrow, 4⟩, ⟨.statement, 1⟩] start (assigning name.toList) := by
  refine ⟨?_, [], rfl, rfl⟩
  rw [← hname]
  rfl

section
variable {name : String} (hname : IsName name) {cs : List Char}
  (hcs : Mark.scan [] (skeleton cs) = some [])
  (hline : ∀ front back, Lexeme.all cs = front ++ .newline :: back →
    Mark.scan [] (front.filterMap Lexeme.mark?) ≠ some [])
include hname hcs hline

/-- The one line of an assignment holds the line of its right-hand side. -/
theorem kinds_ofSource_assignment :
    (ofSource (name.toList ++ ' ' :: '<' :: '-' :: ' ' :: cs)).kinds =
      .blockOpen false :: .blockOpen false :: .identifier name :: .arrow ::
        (lineKinds cs ++ [.blockClose, .blockClose]) := by
  have hlaid : laid (name.toList ++ ' ' :: '<' :: '-' :: ' ' :: cs) =
      (assigning name.toList).lay
        (Position.start.advance (name.toList ++ [' ', '<', '-', ' '])) (Lexeme.all cs) := by
    have hsplit := lay_append_at start .start
      [.word name.toList, .blank ' ', .arrow, .blank ' '] (Lexeme.all cs)
    rw [laid, Lexeme.all_assignment hname.1]
    exact hsplit
  have hscan : Mark.scan [] ([] ++ (Lexeme.all cs).filterMap Lexeme.mark?) = some [] := by
    rw [List.nil_append, Lexeme.filterMap_mark?_all, hcs]
  have hrest := (embedded_assigning hname.2).lay (by simp) standing_start anchored_start
    stacked_start hscan (.inr hline) .start
    (Position.start.advance (name.toList ++ [' ', '<', '-', ' ']))
  rw [ofSource_eq, hlaid]
  generalize (assigning name.toList).lay
    (Position.start.advance (name.toList ++ [' ', '<', '-', ' '])) (Lexeme.all cs) = t at hrest
  generalize Position.start.advance (name.toList ++ ' ' :: '<' :: '-' :: ' ' :: cs) = q
  -- The right-hand side ends where the line of the text on its own does.
  obtain ⟨f, hd, -⟩ := bottom_laid hcs (Position.start.advance cs)
  obtain ⟨hown, t', ht', hbase, harrows⟩ :=
    hrest.closeArrows_bottom (anchored_laid cs) (by decide) hd q
  have hkinds := ht'.kinds_closeTop ((anchored_laid cs).closeArrows _) hown hbase rfl
    (Position.start.advance cs) q
  have hframes : (t'.closeTop q).frames = [⟨.statement, 1⟩] := frames_closeTop q hbase
  have hfinish : t.finish q = (t'.closeTop q).finish q := by
    rw [finish, finish, harrows, closeArrows_of_arrow q hbase rfl]
  rw [hfinish, kinds_finish_of_filled hframes (by rw [← length_kinds, hkinds]; simp), hkinds]
  rfl

end

end Layout

namespace Outline

theorem Runs.unlocated {before after : Outline} {tokens : List Token}
    (h : Runs before tokens after) : Runs before (tokens.map Token.unlocated) after := by
  induction tokens generalizing before with
  | nil => exact h
  | cons token tokens ih =>
      obtain ⟨next, ht, hr⟩ := h
      exact ⟨next, ht, ih hr⟩

/-- Only one block can stand behind an arrow, since its end is the end of the line. -/
theorem Runs.block_after_arrow {bs : List Layout.Bracket} {after : Outline}
    {line other : List Token} {rest : List Token} (hline : Parser.IsBlock line)
    (hother : Parser.IsBlock other) :
    ¬ Runs ⟨.statement :: bs, .pointed⟩ (line ++ (other ++ rest)) after := by
  intro h
  obtain ⟨first, braced, inner, last, rfl, hfirst, hlast, hinner⟩ := hline
  obtain ⟨next, braced', _, _, rfl, hnext, -, -⟩ := hother
  obtain ⟨⟨brackets, pace⟩, ⟨opened, hopens, hr⟩, hafter⟩ := runs_append.1 h
  rw [hfirst] at hopens
  obtain ⟨⟨middle, pace'⟩, hmiddle, hcloses⟩ := hr.of_snoc
  have hbrackets := hmiddle.brackets_eq hinner
  rw [hlast] at hcloses
  obtain ⟨_, hafter, -⟩ := hafter
  rw [hnext] at hafter
  cases hopens
  subst hbrackets
  cases hcloses with
  | plain _ hk => exact hk
  | endRightSide => cases hafter

end Outline

namespace Parser

theorem foldlM_step_cons {limit : Nat} {state next : State} {token : Token}
    (ha : advance state token = .ok next) (hd : next.depth ≤ limit) (tokens : List Token) :
    (token :: tokens).foldlM (step limit) state = tokens.foldlM (step limit) next := by
  rw [List.foldlM_cons, step, ha]
  simp only [bind, Except.bind, if_pos hd]

section
variable {name : String} {program line word arrow : Token}
  (hprogram : program.kind = .blockOpen false) (hline : line.kind = .blockOpen false)
  (hword : word.kind = .identifier name) (harrow : arrow.kind = .arrow)
include hprogram hline hword harrow

/-- Behind the arrow of the first line an operand is due. -/
theorem foldlM_assignment (limit : Nat) (tokens : List Token) :
    (program :: line :: word :: arrow :: tokens).foldlM (step (limit + 3)) (.ready []) =
      tokens.foldlM (step (limit + 3)) (.ready [.assign name arrow,
        .group (.block false) line [], .group (.block false) program []]) := by
  have hopened : advance (.ready []) program =
      .ok (.ready [.group (.block false) program []]) := by
    rw [advance, Parser.read, hprogram]
  have hbegun : advance (.ready [.group (.block false) program []]) line =
      .ok (.ready [.group (.block false) line [], .group (.block false) program []]) := by
    rw [advance, Parser.read, hline]
  have hnamed : advance (.ready [.group (.block false) line [], .group (.block false) program []])
      word = .ok (.named name word
        [.group (.block false) line [], .group (.block false) program []]) := by
    rw [advance, Parser.read, hword]
  have hpointed : advance (.named name word
      [.group (.block false) line [], .group (.block false) program []]) arrow =
      .ok (.ready [.assign name arrow, .group (.block false) line [],
        .group (.block false) program []]) := by
    rw [advance, harrow]
  rw [foldlM_step_cons hopened (by simp [State.depth]),
    foldlM_step_cons hbegun (by simp [State.depth]),
    foldlM_step_cons hnamed (by simp [State.depth]),
    foldlM_step_cons hpointed (by simp [State.depth])]

variable {last final : Token} (hlast : last.kind = .blockClose) (hfinal : final.kind = .blockClose)
include hlast

/-- Without a token behind the arrow its operand is missing. -/
theorem parseTokens_assignment_nil (limit : Nat) :
    parseTokens (limit + 3) [program, line, word, arrow, last, final] =
      .error (.nothingAfterArrow name arrow) := by
  have hmissing : step (limit + 3) (.ready [.assign name arrow, .group (.block false) line [],
      .group (.block false) program []]) last = .error (.nothingAfterArrow name arrow) := by
    rw [step, advance, Parser.read, hlast]
    rfl
  rw [parseTokens, foldlM_assignment hprogram hline hword harrow, List.foldlM_cons, hmissing]
  rfl

include hfinal

/-- The block behind the arrow is the right-hand side. -/
theorem parseTokens_assignment_block {block : List Token} (hblock : IsBlock block) {limit : Nat}
    {node : Node} (h : parseTokens limit block = .ok node) :
    parseTokens (limit + 3) (program :: line :: word :: arrow :: (block ++ [last, final])) =
      .ok (.assign name node) := by
  have hbody : block.foldlM (step (limit + 3)) (.ready [.assign name arrow,
      .group (.block false) line [], .group (.block false) program []]) =
      .ok (.ready [.group (.block false) line [.assign name node],
        .group (.block false) program []]) := by
    have hdelivered := foldlM_block limit [.assign name arrow, .group (.block false) line [],
      .group (.block false) program []] hblock
    rw [h] at hdelivered
    exact hdelivered
  have hended : advance (.ready [.group (.block false) line [.assign name node],
      .group (.block false) program []]) last =
      .ok (.ready [.group (.block false) program [.assign name node]]) := by
    rw [advance, Parser.read, hlast]
    exact if_pos hlast
  have hclosed : advance (.ready [.group (.block false) program [.assign name node]]) final =
      .ok (.complete (.assign name node)) := by
    rw [advance, Parser.read, hfinal]
    exact if_pos hfinal
  rw [parseTokens, foldlM_assignment hprogram hline hword harrow, List.foldlM_append, hbody]
  change [last, final].foldlM (step (limit + 3)) _ >>= finish = _
  rw [foldlM_step_cons hended (by simp [State.depth]),
    foldlM_step_cons hclosed (by simp [State.depth])]
  rfl

end

end Parser

open Pseudocode.Parser

/-- A lexeme with a token leaves a line. -/
theorem Balanced.lineKinds_ne_nil {source : String} (h : Balanced source) {l : Lexeme}
    (hl : l ∈ Lexeme.all source.toList) (hk : l.kind? ≠ none) :
    Layout.lineKinds source.toList ≠ [] := by
  intro hnil
  have hkinds := Layout.kinds_ofSource h.nested
  rw [hnil, List.nil_append, Layout.kinds] at hkinds
  have hwraps : ∀ l ∈ Lexeme.all source.toList, ∀ kind, l.kind? = some kind →
      kind = .blockClose := by
    intro l hl kind hk
    obtain ⟨p, hp⟩ := Lexeme.exists_mem_place hl .start
    have hmem := (Layout.tells_ofSource source.toList).read.exists_token hp hk
    rw [hkinds, List.mem_pair] at hmem
    rcases hmem with rfl | rfl
    · exact absurd hk (Lexeme.kind?_ne_blockOpen l)
    · rfl
  -- A closing brace would follow an opening bracket, and that one has a token of its own.
  have hmarks : (Lexeme.all source.toList).filterMap Lexeme.mark? = [] := by
    have hscan := h.nested
    rw [← Lexeme.filterMap_mark?_all] at hscan
    cases hm : (Lexeme.all source.toList).filterMap Lexeme.mark? with
    | nil => rfl
    | cons m ms =>
        obtain ⟨opener, hopener, hmark⟩ := List.mem_filterMap.1 (hm ▸ List.mem_cons_self : m ∈ _)
        rw [hm, Mark.scan_cons] at hscan
        cases m with
        | closes pair => cases hscan
        | opens pair =>
            cases opener with
            | parenOpen => cases hwraps _ hopener _ rfl
            | braceOpen => cases hwraps _ hopener _ rfl
            | _ => cases hmark
  obtain ⟨kind, hkind⟩ := Option.ne_none_iff_exists'.1 hk
  have hclose := hwraps l hl kind hkind
  have hmark := List.filterMap_eq_nil_iff.1 hmarks l hl
  subst hclose
  cases l with
  | braceClose => cases hmark
  | word content =>
      have hplain := Token.Kind.plain_ofWord (Lexeme.proper_of_mem_all hl)
      rw [Option.some.inj hkind] at hplain
      exact hplain
  | _ => cases hkind

namespace Lexeme

theorem all_of_loose {cs : List Char} (h : ∀ c ∈ cs, Loose c) {l : Lexeme} (hl : l ∈ all cs) :
    ∃ c, l = blank c ∨ l = ignored c := by
  induction cs with
  | nil =>
      rw [all_nil] at hl
      cases hl
  | cons c cs ih =>
      obtain ⟨⟨hb, ho, hw⟩, hcs⟩ := List.forall_mem_cons.1 h
      rw [all_cons, cut_eq_cutPlain hb, cutPlain, if_neg ho, if_neg (Bool.eq_false_iff.1 hw)] at hl
      split at hl <;> rcases List.mem_cons.1 hl with rfl | hl
      · exact ⟨c, .inl rfl⟩
      · exact ih hcs hl
      · exact ⟨c, .inr rfl⟩
      · exact ih hcs hl

end Lexeme

theorem Layout.lay_of_loose {ls : List Lexeme} (h : ∀ l ∈ ls, ∃ c, l = .blank c ∨ l = .ignored c)
    (s : Layout) (p : Position) :
    (s.lay p ls).tokens = s.tokens ∧ (s.lay p ls).frames = s.frames := by
  induction ls generalizing s p with
  | nil => exact ⟨rfl, rfl⟩
  | cons l ls ih =>
      obtain ⟨⟨c, hl⟩, hls⟩ := List.forall_mem_cons.1 h
      rw [lay_cons]
      have hrest := ih hls (s.step (p, l)) (p.advance l.chars)
      rcases hl with rfl | rfl <;> exact hrest

theorem Layout.lineKinds_of_loose {cs : List Char}
    (h : ∀ l ∈ Lexeme.all cs, ∃ c, l = .blank c ∨ l = .ignored c) : lineKinds cs = [] := by
  obtain ⟨htokens, hframes⟩ : (laid cs).tokens = start.tokens ∧ (laid cs).frames = start.frames :=
    lay_of_loose h start .start
  have hbottom : (laid cs).frames = [⟨.statement, 1⟩] := hframes
  rw [lineKinds, closeArrows_of_not_arrow _ (by simp [hbottom]), closeTop_of_frames _ hbottom,
    Layout.kinds, htokens]
  rfl

theorem toList_assignment (name source : String) :
    (name ++ " <- " ++ source).toList =
      name.toList ++ ' ' :: '<' :: '-' :: ' ' :: source.toList := by
  simp [String.toList_append]

theorem balanced_assignment {name source : String} (hname : IsName name) (h : Balanced source) :
    Balanced (name ++ " <- " ++ source) := by
  have hall := Lexeme.all_assignment hname.1 source.toList
  constructor
  · intro l hl content
    rw [toList_assignment, hall] at hl
    simp only [List.mem_cons] at hl
    rcases hl with rfl | rfl | rfl | rfl | hl
    · exact Lexeme.noConfusion
    · exact Lexeme.noConfusion
    · exact Lexeme.noConfusion
    · exact Lexeme.noConfusion
    · exact h.closed l hl content
  · have hnested := h.nested
    rw [← Lexeme.filterMap_mark?_all] at hnested ⊢
    rw [toList_assignment, hall]
    exact hnested

section
variable {name source : String} (hname : IsName name) (h : Balanced source)
  (hone : OneLine source)
include hname h hone

theorem map_kind_assignment :
    (Layout.ofSource (name ++ " <- " ++ source).toList).tokens.toList.map Token.kind =
      .blockOpen false :: .blockOpen false :: .identifier name :: .arrow ::
        (Layout.lineKinds source.toList ++ [.blockClose, .blockClose]) := by
  rw [toList_assignment]
  exact Layout.kinds_ofSource_assignment hname h.nested fun front back => hone.scan_of_newline h

/-- The line of a text of one line is one block. -/
theorem Balanced.isBlock_line (hne : Layout.lineKinds source.toList ≠ []) :
    IsBlock ((Layout.lineKinds source.toList).map Token.bare) := by
  obtain ⟨lines, hflat, hlines⟩ := h.exists_lines
  have hruns := (Layout.runs_ofSource (balanced_assignment hname h).nested).unlocated
  rw [Token.map_unlocated, map_kind_assignment hname h hone] at hruns
  simp only [List.map_cons, List.map_append, ← hflat] at hruns
  rw [← hflat]
  obtain _ | ⟨line, _ | ⟨other, lines⟩⟩ := lines
  · exact absurd (List.map_eq_nil_iff.1 hflat.symm) hne
  · simpa using hlines
  · obtain ⟨hline, hothers⟩ := List.forall_mem_cons.1 hlines
    have hother := hothers other List.mem_cons_self
    -- A second block would follow the end of the right-hand side.
    obtain ⟨_, hprogram, _, hbegin, _, hword, _, harrow, hrest⟩ := hruns
    cases hprogram
    obtain ⟨-, rfl⟩ := hbegin.line (by simp [Token.bare])
    cases hword
    cases harrow with
    | plain _ hk => exact hk.elim
    | arrow _ =>
        rw [List.flatten_cons, List.flatten_cons, List.append_assoc, List.append_assoc] at hrest
        exact absurd hrest (Outline.Runs.block_after_arrow hline hother)

theorem parse_assignment {limit : Nat} {tree : Node} (hp : parse source limit = .ok tree)
    (hne : Layout.lineKinds source.toList ≠ []) :
    ∃ whole, parse (name ++ " <- " ++ source) (limit + 2) = .ok whole ∧
      whole.unlocated = (Node.assign name tree).unlocated := by
  cases limit with
  | zero => exact absurd hp (parse_zero h)
  | succ limit =>
  have hline := h.isBlock_line hname hone hne
  have hlayout := tokenize_of_closed h.closed
  have hnode : parseTokens limit ((Layout.lineKinds source.toList).map Token.bare) =
      .ok tree.unlocated := by
    have hbare := parseTokens_unlocated (limit + 1)
      (Layout.ofSource source.toList).tokens.toList
    rw [parse_of_tokenize hlayout] at hp
    rw [hp, Token.map_unlocated, ← Layout.kinds, Layout.kinds_ofSource h.nested, List.map_cons,
      List.map_append] at hbare
    rw [← parseTokens_singleton (.bare (.blockOpen false)) (.bare .blockClose) rfl rfl hline]
    exact eq_ok_of_toOption hbare
  have hwhole := parseTokens_unlocated (limit + 3)
    (Layout.ofSource (name ++ " <- " ++ source).toList).tokens.toList
  rw [Token.map_unlocated, map_kind_assignment hname h hone] at hwhole
  simp only [List.map_cons, List.map_append] at hwhole
  have hassign : parseTokens (limit + 3) (Token.bare (.blockOpen false) ::
      Token.bare (.blockOpen false) :: Token.bare (.identifier name) :: Token.bare .arrow ::
        ((Layout.lineKinds source.toList).map Token.bare ++
          [Token.bare .blockClose, Token.bare .blockClose])) = .ok (.assign name tree.unlocated) :=
    parseTokens_assignment_block rfl rfl rfl rfl rfl rfl hline hnode
  rw [List.map_nil, hassign] at hwhole
  obtain ⟨whole, hwhole, hsame⟩ := Option.map_eq_some_iff.1 hwhole.symm
  refine ⟨whole, ?_, hsame⟩
  rw [parse_of_tokenize (tokenize_of_closed (balanced_assignment hname h).closed)]
  exact eq_ok_of_toOption hwhole

end

/-- An arrow with only blanks and ignored characters behind it. -/
theorem parse_assignment_nil {name source : String} (hname : IsName name)
    (hloose : ∀ c ∈ source.toList, Lexeme.Loose c) (limit : Nat) :
    ∃ arrow, parse (name ++ " <- " ++ source) (limit + 3) =
      .error (.nothingAfterArrow name arrow) := by
  have hall : ∀ l ∈ Lexeme.all source.toList, ∃ c, l = .blank c ∨ l = .ignored c :=
    fun l => Lexeme.all_of_loose hloose
  have hmarks : (Lexeme.all source.toList).filterMap Lexeme.mark? = [] := by
    refine List.filterMap_eq_nil_iff.2 fun l hl => ?_
    obtain ⟨c, rfl | rfl⟩ := hall l hl <;> rfl
  have hbalanced : Balanced source := by
    constructor
    · intro l hl content
      obtain ⟨c, rfl | rfl⟩ := hall l hl <;> exact Lexeme.noConfusion
    · rw [← Lexeme.filterMap_mark?_all, hmarks]
      rfl
  have hline : OneLine source := by
    intro front back hsplit
    have hbreak : '\n' ∈ source.toList := by simp [hsplit]
    exact absurd (by decide) (hloose _ hbreak).1
  have hkinds := map_kind_assignment hname hbalanced hline
  rw [Layout.lineKinds_of_loose hall, List.nil_append] at hkinds
  rw [parse_of_tokenize (tokenize_of_closed (balanced_assignment hname hbalanced).closed)]
  generalize (Layout.ofSource (name ++ " <- " ++ source).toList).tokens.toList = tokens at hkinds
  simp only [List.map_eq_cons_iff, List.map_eq_nil_iff] at hkinds
  obtain ⟨program, _, rfl, hprogram, line, _, rfl, hbegin, word, _, rfl, hword, arrow, _, rfl,
    harrow, last, _, rfl, hlast, final, _, rfl, -, rfl⟩ := hkinds
  exact ⟨arrow, parseTokens_assignment_nil hprogram hbegin hword harrow hlast limit⟩

/-- An assignment takes the rest of its line. A text of one line with a token of its own that has
a tree is the right-hand side behind a name and an arrow, up to locations and with two more
levels of nesting. Behind an arrow with only blanks and ignored characters the operand is
missing. -/
theorem assignment_takes_line {name : String} (hname : IsName name) (source : String) :
    (∀ limit tree, parse source limit = .ok tree → OneLine source →
      (∃ l ∈ Lexeme.all source.toList, l.kind? ≠ none) →
      ∀ deeper, limit + 2 ≤ deeper →
        ∃ whole, parse (name ++ " <- " ++ source) deeper = .ok whole ∧
          whole.unlocated = (Node.assign name tree).unlocated) ∧
    ((∀ c ∈ source.toList, Lexeme.Loose c) → ∀ limit, 3 ≤ limit →
      ∃ arrow, parse (name ++ " <- " ++ source) limit =
        .error (.nothingAfterArrow name arrow)) := by
  constructor
  · rintro limit tree hparse hline ⟨l, hl, hkind⟩ deeper hdeeper
    have h := balanced_of_parse hparse
    obtain ⟨whole, hwhole, hsame⟩ :=
      parse_assignment hname h hline hparse (h.lineKinds_ne_nil hl hkind)
    exact ⟨whole, parse_mono hdeeper hwhole, hsame⟩
  · intro hloose limit hlimit
    obtain ⟨limit, rfl⟩ := Nat.exists_eq_add_of_le' hlimit
    exact parse_assignment_nil hname hloose limit

/-- Line feeds in parentheses, in braces and in quotes do not end the right-hand side. -/
theorem assignment_takes_line_sample :
    let source := "y <- F(1,\n\x7b z <- 2\n3 \x7d) + \"\n\""
    IsName "x" ∧ OneLine source ∧ (∃ tree, parse source 30 = .ok tree ∧
      ∃ whole, parse ("x" ++ " <- " ++ source) 32 = .ok whole ∧
        whole.unlocated = (Node.assign "x" tree).unlocated) ∧
    ∃ arrow, parse ("x" ++ " <- " ++ " , ") 3 = .error (.nothingAfterArrow "x" arrow) := by
  intro source
  have hname : IsName "x" := by
    constructor
    · decide +kernel
    · rfl
  have hline : OneLine source := by decide +kernel
  have hok : (parse source 30).isOk = true := by decide +kernel
  have hloose : ∀ c ∈ " , ".toList, Lexeme.Loose c := by
    intro c hc
    rcases (show c = ' ' ∨ c = ',' ∨ c = ' ' by simpa using hc) with rfl | rfl | rfl <;>
      exact ⟨by decide, by decide, by decide +kernel⟩
  cases htree : parse source 30 with
  | error e => rw [htree] at hok; cases hok
  | ok tree =>
      have htoken : ∃ l ∈ Lexeme.all source.toList, l.kind? ≠ none :=
        ⟨.arrow, by decide +kernel, by simp [Lexeme.kind?]⟩
      exact ⟨hname, hline, ⟨tree, rfl, (assignment_takes_line hname source).1 30 tree htree hline
        htoken 32 (Nat.le_refl _)⟩, (assignment_takes_line hname " , ").2 hloose 3 (Nat.le_refl _)⟩

end Pseudocode
