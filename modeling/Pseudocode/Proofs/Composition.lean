import Pseudocode.Proofs.Blocks
import Pseudocode.Proofs.Embedding
import Pseudocode.Proofs.Scanning
import Pseudocode.Proofs.Unlocated

/-!
# Programs compose

The statements of a program are the nodes of its program block, one for each line that
holds something. A program of one statement is that statement, so they are taken before
the block is closed.

Two texts, one below the other, have the statements of both, and a text in braces is the
block of its statements. Locations differ, and nothing else does. The braces cost two
levels of nesting: one for themselves and one for the line that they stand on.
-/
namespace Pseudocode

namespace Parser

/-- The nodes of an implicit block so far. -/
def Frame.blockNodes? : Frame → Option (List Node)
  | group (.block false) _ nodes => some nodes.reverse
  | _ => none

/-- The nodes of the program block so far, when nothing is open inside of it. -/
def State.programNodes? : State → Option (List Node)
  | ready [frame] => frame.blockNodes?
  | _ => none

/-- The nodes of the program block before the last token of a stream. -/
def nodes? (limit : Nat) (tokens : List Token) : Option (List Node) :=
  (tokens.dropLast.foldlM (step limit) (.ready [])).toOption.bind State.programNodes?

end Parser

/-- The statements of a text, before a program of one statement becomes that statement. -/
def statements? (source : String) (limit : Nat := nestingLimit) : Option (List Node) :=
  (tokenize source).toOption.bind fun layout => Parser.nodes? limit layout.tokens.toList

def Token.bare (kind : Token.Kind) : Token := ⟨kind, {}⟩

theorem Token.map_unlocated (tokens : List Token) :
    tokens.map Token.unlocated = (tokens.map Token.kind).map Token.bare := by
  rw [List.map_map]
  rfl

theorem Token.marks_unlocated (tokens : List Token) :
    Token.marks (tokens.map Token.unlocated) = Token.marks tokens := by
  rw [Token.marks, List.filterMap_map]
  rfl

namespace Parser

theorem isBlock_unlocated {tokens : List Token} (h : IsBlock tokens) :
    IsBlock (tokens.map Token.unlocated) := by
  obtain ⟨first, braced, inner, last, rfl, hfirst, hlast, hinner⟩ := h
  refine ⟨first.unlocated, braced, inner.map Token.unlocated, last.unlocated, by simp, hfirst,
    hlast, ?_⟩
  rwa [Token.marks_unlocated]

theorem Frame.blockNodes?_unlocated (frame : Frame) :
    frame.unlocated.blockNodes? = frame.blockNodes?.map (List.map Node.unlocated) := by
  cases frame with
  | group g opener nodes =>
      cases g with
      | block braced =>
          cases braced with
          | true => rfl
          | false => exact congrArg some (List.map_reverse).symm
      | _ => rfl
  | _ => rfl

theorem State.programNodes?_unlocated (state : State) :
    state.unlocated.programNodes? = state.programNodes?.map (List.map Node.unlocated) := by
  match state with
  | .ready [frame] => exact frame.blockNodes?_unlocated
  | .ready [] => rfl
  | .ready (_ :: _ :: _) => rfl
  | .named _ _ _ => rfl
  | .complete _ => rfl

/-- A stream without locations has the nodes without locations. -/
theorem nodes?_unlocated (limit : Nat) (tokens : List Token) :
    nodes? limit (tokens.map Token.unlocated) =
      (nodes? limit tokens).map (List.map Node.unlocated) := by
  have hfold : ((tokens.dropLast.map Token.unlocated).foldlM (step limit) (.ready [])).toOption =
      _ := foldlM_step_unlocated limit (.ready []) tokens.dropLast
  unfold nodes?
  rw [← List.map_dropLast, hfold]
  cases (tokens.dropLast.foldlM (step limit) (.ready [])).toOption with
  | none => rfl
  | some state => exact state.programNodes?_unlocated

section
variable {first last : Token} {blocks : List (List Token)} (hblocks : ∀ b ∈ blocks, IsBlock b)
  (hfirst : first.kind = .blockOpen false)
include hblocks hfirst

theorem nodes?_blocks (limit : Nat) :
    nodes? (limit + 1) (first :: (blocks.flatten ++ [last])) =
      (blocks.mapM (parseTokens limit)).toOption := by
  unfold nodes?
  rw [← List.cons_append, List.dropLast_concat, foldlM_first_blocks hfirst limit hblocks]
  cases blocks.mapM (parseTokens limit) with
  | error e => rfl
  | ok nodes => exact congrArg some nodes.reverse_reverse

/-- The tree of a program is the node of its nodes. -/
theorem toOption_parseTokens_blocks (hlast : last.kind = .blockClose) (limit : Nat) :
    (parseTokens (limit + 1) (first :: (blocks.flatten ++ [last]))).toOption =
      (nodes? (limit + 1) (first :: (blocks.flatten ++ [last]))).map (Group.block false).node := by
  rw [nodes?_blocks hblocks hfirst, parseTokens_blocks hfirst hlast limit hblocks]
  cases blocks.mapM (parseTokens limit) <;> rfl

end

end Parser

open Pseudocode.Parser

theorem eq_ok_of_toOption {e : Except SourceError α} {x : α} (h : e.toOption = some x) :
    e = .ok x := by
  cases e with
  | error e => cases h
  | ok y => exact congrArg Except.ok (Option.some.inj h)

namespace Lexeme

theorem exists_mem_place {l : Lexeme} {ls : List Lexeme} (h : l ∈ ls) (p : Position) :
    ∃ q, (q, l) ∈ place p ls := by
  induction ls generalizing p with
  | nil => cases h
  | cons first ls ih =>
      rcases List.mem_cons.1 h with rfl | h
      · exact ⟨p, List.mem_cons_self⟩
      · obtain ⟨q, hq⟩ := ih h (p.advance first.chars)
        exact ⟨q, List.mem_cons_of_mem _ hq⟩

end Lexeme

/-- Every quote has its partner and the brackets are well nested. -/
structure Balanced (source : String) : Prop where
  closed : ∀ l ∈ Lexeme.all source.toList, ∀ content, l ≠ .unclosed content
  nested : Mark.scan [] (skeleton source.toList) = some []

theorem exists_layout_of_parse {source : String} {limit : Nat} {tree : Node}
    (h : parse source limit = .ok tree) : ∃ layout, tokenize source = .ok layout := by
  rw [parse] at h
  cases ht : tokenize source with
  | error e => rw [ht] at h; cases h
  | ok layout => exact ⟨layout, rfl⟩

theorem balanced_of_parse {source : String} {limit : Nat} {tree : Node}
    (h : parse source limit = .ok tree) : Balanced source := by
  obtain ⟨layout, ht⟩ := exists_layout_of_parse h
  constructor
  · intro l hl content
    obtain ⟨p, hp⟩ := Lexeme.exists_mem_place hl .start
    exact ne_unclosed_of_tokenize ht hp content
  · rw [parse_of_tokenize ht, eq_ofSource_of_tokenize ht] at h
    exact Layout.scan_skeleton_of_accepted (run_of_parseTokens h)

/-- Nothing is parsed without a level for the program block. -/
theorem parse_zero {source : String} (h : Balanced source) {tree : Node} :
    parse source 0 ≠ .ok tree := by
  intro hp
  obtain ⟨blocks, last, htokens, -, -⟩ := Layout.exists_blocks h.nested
  rw [parse_of_tokenize (tokenize_of_closed h.closed), htokens] at hp
  cases hp

section
variable {a b : String}

theorem toList_line (a b : String) : (a ++ "\n" ++ b).toList = a.toList ++ '\n' :: b.toList := by
  simp [String.toList_append]

theorem skeleton_line (ha : Balanced a) (b : String) :
    skeleton (a ++ "\n" ++ b).toList = skeleton a.toList ++ skeleton b.toList := by
  rw [← Lexeme.filterMap_mark?_all, toList_line, Layout.all_line ha.closed, List.filterMap_append,
    ← Lexeme.filterMap_mark?_all, ← Lexeme.filterMap_mark?_all]
  rfl

/-- Behind a balanced text and a line break, balance is a matter of what follows. -/
theorem balanced_line (ha : Balanced a) (b : String) :
    Balanced (a ++ "\n" ++ b) ↔ Balanced b := by
  have hscan : Mark.scan [] (skeleton (a ++ "\n" ++ b).toList) =
      Mark.scan [] (skeleton b.toList) := by
    rw [skeleton_line ha, Mark.scan_append, ha.nested]
    rfl
  have hall := Layout.all_line ha.closed b.toList
  rw [← toList_line] at hall
  constructor
  · rintro ⟨hclosed, hnested⟩
    refine ⟨fun l hl => hclosed l ?_, by rwa [← hscan]⟩
    rw [hall]
    exact List.mem_append_right _ (List.mem_cons_of_mem _ hl)
  · rintro ⟨hclosed, hnested⟩
    refine ⟨fun l hl content => ?_, by rwa [hscan]⟩
    rw [hall] at hl
    rcases List.mem_append.1 hl with hl | hl
    · exact ha.closed l hl content
    · rcases List.mem_cons.1 hl with rfl | hl
      · exact Lexeme.noConfusion
      · exact hclosed l hl content

theorem statements?_of_balanced (h : Balanced a) (limit : Nat) :
    statements? a limit = nodes? limit (Layout.ofSource a.toList).tokens.toList := by
  rw [statements?, tokenize_of_closed h.closed]
  rfl

theorem toOption_parse (h : Balanced a) (limit : Nat) :
    (parse a (limit + 1)).toOption =
      (statements? a (limit + 1)).map (Group.block false).node := by
  obtain ⟨blocks, last, htokens, hlast, hblocks⟩ := Layout.exists_blocks h.nested
  rw [parse_of_tokenize (tokenize_of_closed h.closed), statements?_of_balanced h, htokens]
  exact toOption_parseTokens_blocks hblocks rfl hlast limit

/-- The lines of a balanced text without locations. -/
theorem Balanced.exists_lines (h : Balanced a) :
    ∃ lines : List (List Token), lines.flatten = (Layout.lineKinds a.toList).map Token.bare ∧
      ∀ line ∈ lines, IsBlock line := by
  obtain ⟨blocks, last, htokens, hlast, hblocks⟩ := Layout.exists_blocks h.nested
  refine ⟨blocks.map (List.map Token.unlocated), ?_, ?_⟩
  · have hkinds := Layout.kinds_ofSource h.nested
    rw [Layout.kinds, htokens, List.map_cons, List.map_append] at hkinds
    have hflat := (List.append_inj' (List.cons.inj hkinds).2 rfl).1
    rw [← List.map_flatten, Token.map_unlocated, hflat]
  · intro line hline
    obtain ⟨block, hblock, rfl⟩ := List.mem_map.1 hline
    exact isBlock_unlocated (hblocks block hblock)

/-- Up to locations, the statements of a text are those of its lines. -/
theorem map_statements? (h : Balanced a) {kinds : List Token.Kind} {lines : List (List Token)}
    (hkinds : (Layout.ofSource a.toList).kinds = .blockOpen false :: (kinds ++ [.blockClose]))
    (hflat : lines.flatten = kinds.map Token.bare) (hlines : ∀ line ∈ lines, IsBlock line)
    (limit : Nat) :
    (statements? a (limit + 1)).map (List.map Node.unlocated) =
      (lines.mapM (parseTokens limit)).toOption := by
  have htokens : (Layout.ofSource a.toList).tokens.toList.map Token.unlocated =
      Token.bare (.blockOpen false) :: (lines.flatten ++ [Token.bare .blockClose]) := by
    rw [Token.map_unlocated, ← Layout.kinds, hkinds, hflat, List.map_cons, List.map_append]
    rfl
  rw [statements?_of_balanced h, ← nodes?_unlocated, htokens]
  exact nodes?_blocks hlines rfl limit

/-- Two texts, one below the other. -/
theorem map_statements?_line (ha : Balanced a) (hb : Balanced b) (limit : Nat) :
    (statements? (a ++ "\n" ++ b) (limit + 1)).map (List.map Node.unlocated) =
      ((statements? a (limit + 1)).map (List.map Node.unlocated)).bind fun front =>
        ((statements? b (limit + 1)).map (List.map Node.unlocated)).map (front ++ ·) := by
  obtain ⟨front, hfront, hfronts⟩ := ha.exists_lines
  obtain ⟨back, hback, hbacks⟩ := hb.exists_lines
  have hkinds := Layout.kinds_ofSource_append ha.closed ha.nested hb.nested
  rw [← toList_line] at hkinds
  have hflat : (front ++ back).flatten =
      (Layout.lineKinds a.toList ++ Layout.lineKinds b.toList).map Token.bare := by
    rw [List.flatten_append, hfront, hback, List.map_append]
  have hlines : ∀ line ∈ front ++ back, IsBlock line := by
    intro line hline
    rcases List.mem_append.1 hline with hline | hline
    · exact hfronts line hline
    · exact hbacks line hline
  rw [map_statements? ((balanced_line ha b).2 hb) hkinds hflat hlines,
    map_statements? ha (Layout.kinds_ofSource ha.nested) hfront hfronts,
    map_statements? hb (Layout.kinds_ofSource hb.nested) hback hbacks, List.mapM_append]
  cases front.mapM (parseTokens limit) with
  | error e => rfl
  | ok nodes => cases back.mapM (parseTokens limit) <;> rfl

/-- An implicit block around one block has the tree of that block. -/
theorem parseTokens_singleton (first last : Token) {block : List Token}
    (hfirst : first.kind = .blockOpen false) (hlast : last.kind = .blockClose)
    (hblock : IsBlock block) (limit : Nat) :
    parseTokens (limit + 1) (first :: (block ++ [last])) = parseTokens limit block := by
  have hblocks : ∀ b ∈ [block], IsBlock b := by simpa using hblock
  have hparse := parseTokens_blocks hfirst hlast limit hblocks
  rw [List.flatten_singleton] at hparse
  rw [hparse, List.mapM_cons]
  cases parseTokens limit block <;> rfl

theorem toList_braces (a : String) :
    ("\x7b" ++ a ++ "\x7d").toList = '\x7b' :: (a.toList ++ ['\x7d']) := by
  simp [String.toList_append]

theorem tokenize_braces (h : Balanced a) : tokenize ("\x7b" ++ a ++ "\x7d") =
    .ok (Layout.ofSource ("\x7b" ++ a ++ "\x7d").toList) := by
  apply tokenize_of_closed
  intro l hl content
  rw [toList_braces, Layout.all_braces h.closed, List.mem_cons, List.mem_append,
    List.mem_singleton] at hl
  rcases hl with rfl | hl | rfl
  · exact Lexeme.noConfusion
  · exact h.closed l hl content
  · exact Lexeme.noConfusion

/-- The stream of a text in braces, for the lines of the text. -/
theorem parseTokens_braces {lines : List (List Token)} (hlines : ∀ line ∈ lines, IsBlock line)
    {limit : Nat} {nodes : List Node} (h : lines.mapM (parseTokens limit) = .ok nodes) :
    parseTokens (limit + 3) (Token.bare (.blockOpen false) :: Token.bare (.blockOpen false) ::
      Token.bare (.blockOpen true) :: (lines.flatten ++
        [Token.bare .blockClose, Token.bare .blockClose, Token.bare .blockClose])) =
      .ok (.block nodes) := by
  have hbraces : parseTokens (limit + 1)
      (Token.bare (.blockOpen true) :: (lines.flatten ++ [Token.bare .blockClose])) =
      .ok (.block nodes) := by
    rw [parseTokens_blocks rfl rfl limit hlines, h]
    rfl
  have hblock : IsBlock
      (Token.bare (.blockOpen true) :: (lines.flatten ++ [Token.bare .blockClose])) :=
    ⟨_, true, _, _, rfl, rfl, rfl, wellNested_flatten hlines⟩
  -- The line of the braces, and the program of that line.
  have hline := parseTokens_singleton (.bare (.blockOpen false)) (.bare .blockClose) rfl rfl
    hblock (limit + 1)
  have hline_block : IsBlock (Token.bare (.blockOpen false) ::
      ((Token.bare (.blockOpen true) :: (lines.flatten ++ [Token.bare .blockClose])) ++
        [Token.bare .blockClose])) :=
    ⟨_, false, _, _, rfl, rfl, rfl, wellNested_of_isBlock hblock⟩
  have hprogram := parseTokens_singleton (.bare (.blockOpen false)) (.bare .blockClose) rfl rfl
    hline_block (limit + 2)
  rw [hline, hbraces] at hprogram
  simpa using hprogram

/-- A text in braces is the block of its statements. -/
theorem parse_braces (h : Balanced a) {limit : Nat} {nodes : List Node}
    (hnodes : statements? a (limit + 1) = some nodes) :
    ∃ tree, parse ("\x7b" ++ a ++ "\x7d") (limit + 3) = .ok tree ∧
      tree.unlocated = (Node.block nodes).unlocated := by
  obtain ⟨lines, hflat, hlines⟩ := h.exists_lines
  have hmap := map_statements? h (Layout.kinds_ofSource h.nested) hflat hlines limit
  rw [hnodes, Option.map_some] at hmap
  have hall : lines.mapM (parseTokens limit) = .ok (nodes.map Node.unlocated) :=
    eq_ok_of_toOption hmap.symm
  have htokens : (Layout.ofSource ("\x7b" ++ a ++ "\x7d").toList).tokens.toList.map
      Token.unlocated = Token.bare (.blockOpen false) :: Token.bare (.blockOpen false) ::
        Token.bare (.blockOpen true) :: (lines.flatten ++
          [Token.bare .blockClose, Token.bare .blockClose, Token.bare .blockClose]) := by
    rw [Token.map_unlocated, ← Layout.kinds, toList_braces,
      Layout.kinds_ofSource_braces h.closed h.nested, hflat]
    simp
  have hbare := parseTokens_unlocated (limit + 3)
    (Layout.ofSource ("\x7b" ++ a ++ "\x7d").toList).tokens.toList
  rw [htokens, parseTokens_braces hlines hall] at hbare
  obtain ⟨tree, htree, hsame⟩ := Option.map_eq_some_iff.1 hbare.symm
  refine ⟨tree, ?_, ?_⟩
  · rw [parse_of_tokenize (tokenize_braces h)]
    exact eq_ok_of_toOption htree
  · rw [hsame, Node.unlocated, Node.unlocatedAll_eq_map]

theorem parse_mono {limit deeper : Nat} (hle : limit ≤ deeper) {tree : Node}
    (h : parse a limit = .ok tree) : parse a deeper = .ok tree := by
  obtain ⟨layout, ht⟩ := exists_layout_of_parse h
  rw [parse_of_tokenize ht] at h ⊢
  exact parseTokens_mono hle h

/-- A text has a tree if it has statements, and then it is their node. -/
theorem Balanced.parse_eq_ok_iff (h : Balanced a) {limit : Nat} {tree : Node} :
    parse a (limit + 1) = .ok tree ↔
      ∃ nodes, statements? a (limit + 1) = some nodes ∧ (Group.block false).node nodes = tree := by
  have hparse := toOption_parse h limit
  rw [← Option.map_eq_some_iff, ← hparse]
  constructor
  · intro hok
    rw [hok]
    rfl
  · exact eq_ok_of_toOption

end

/-- A text that has a tree can be put in front of another text or in braces. In front of another
text it leaves to that text whether there is a tree, and the statements of the whole are the
statements of both. In braces it becomes the block of its statements, with two more levels of
nesting. All this is up to locations. -/
theorem programs_compose (a b : String) (limit : Nat) {tree : Node}
    (h : parse a limit = .ok tree) :
    ∃ front, statements? a limit = some front ∧ tree = (Group.block false).node front ∧
      ((∃ whole, parse (a ++ "\n" ++ b) limit = .ok whole) ↔
        ∃ other, parse b limit = .ok other) ∧
      (∀ other, parse b limit = .ok other → ∃ back all,
        statements? b limit = some back ∧ other = (Group.block false).node back ∧
        statements? (a ++ "\n" ++ b) limit = some all ∧
        parse (a ++ "\n" ++ b) limit = .ok ((Group.block false).node all) ∧
        all.map Node.unlocated = front.map Node.unlocated ++ back.map Node.unlocated) ∧
      ∀ deeper, limit + 2 ≤ deeper → ∃ braces,
        parse ("\x7b" ++ a ++ "\x7d") deeper = .ok braces ∧
        braces.unlocated = (Node.block front).unlocated := by
  have ha := balanced_of_parse h
  cases limit with
  | zero => exact absurd h (parse_zero ha)
  | succ limit =>
  obtain ⟨front, hfront, htree⟩ := ha.parse_eq_ok_iff.1 h
  have hboth : ∀ other, parse b (limit + 1) = .ok other → ∃ back all,
      statements? b (limit + 1) = some back ∧ other = (Group.block false).node back ∧
      statements? (a ++ "\n" ++ b) (limit + 1) = some all ∧
      parse (a ++ "\n" ++ b) (limit + 1) = .ok ((Group.block false).node all) ∧
      all.map Node.unlocated = front.map Node.unlocated ++ back.map Node.unlocated := by
    intro other hother
    have hb := balanced_of_parse hother
    obtain ⟨back, hback, hnode⟩ := hb.parse_eq_ok_iff.1 hother
    have hline := map_statements?_line ha hb limit
    rw [hfront, hback] at hline
    obtain ⟨all, hall, hmap⟩ := Option.map_eq_some_iff.1 hline
    exact ⟨back, all, hback, hnode.symm, hall,
      ((balanced_line ha b).2 hb).parse_eq_ok_iff.2 ⟨all, hall, rfl⟩, hmap⟩
  refine ⟨front, hfront, htree.symm, ⟨?_, ?_⟩, hboth, ?_⟩
  · rintro ⟨whole, hwhole⟩
    have hab := balanced_of_parse hwhole
    have hb := (balanced_line ha b).1 hab
    obtain ⟨all, hall, -⟩ := hab.parse_eq_ok_iff.1 hwhole
    have hline := map_statements?_line ha hb limit
    rw [hfront, hall] at hline
    obtain ⟨back, hback, -⟩ := Option.map_eq_some_iff.1 hline.symm
    obtain ⟨back, hback, -⟩ := Option.map_eq_some_iff.1 hback
    exact ⟨_, hb.parse_eq_ok_iff.2 ⟨back, hback, rfl⟩⟩
  · rintro ⟨other, hother⟩
    obtain ⟨back, all, -, -, -, hwhole, -⟩ := hboth other hother
    exact ⟨_, hwhole⟩
  · intro deeper hle
    obtain ⟨braces, hbraces, hsame⟩ := parse_braces ha hfront
    exact ⟨braces, parse_mono hle hbraces, hsame⟩

/-- One statement and two more, and all three in one text. -/
theorem programs_compose_sample :
    let a := "x <- (1\n2)"
    let b := "F(x) + \"\x7d\"\n\n\x7b y \x7d"
    (∃ tree, parse a 30 = .ok tree) ∧ (∃ other, parse b 30 = .ok other) ∧
    ∃ front back all, statements? a 30 = some front ∧ statements? b 30 = some back ∧
      statements? (a ++ "\n" ++ b) 30 = some all ∧ front.length = 1 ∧ back.length = 2 ∧
      all.map Node.unlocated = front.map Node.unlocated ++ back.map Node.unlocated ∧
      ∃ braces, parse ("\x7b" ++ a ++ "\x7d") 32 = .ok braces ∧
        braces.unlocated = (Node.block front).unlocated := by
  intro a b
  have hfront : (statements? a 30).map List.length = some 1 := by decide +kernel
  have hback : (statements? b 30).map List.length = some 2 := by decide +kernel
  have ha : (parse a 30).isOk = true := by decide +kernel
  have hb : (parse b 30).isOk = true := by decide +kernel
  cases htree : parse a 30 with
  | error e => rw [htree] at ha; cases ha
  | ok tree =>
      cases hother : parse b 30 with
      | error e => rw [hother] at hb; cases hb
      | ok other =>
          obtain ⟨front, hf, -, -, hline, hbraces⟩ := programs_compose a b 30 htree
          obtain ⟨back, all, hk, -, hall, -, hmap⟩ := hline other hother
          rw [hf] at hfront
          rw [hk] at hback
          exact ⟨⟨tree, rfl⟩, ⟨other, rfl⟩, front, back, all, hf, hk, hall,
            Option.some.inj hfront, Option.some.inj hback, hmap, hbraces 32 (Nat.le_refl _)⟩

end Pseudocode
