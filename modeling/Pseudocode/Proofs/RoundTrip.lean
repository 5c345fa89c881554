import Pseudocode.Proofs.NumberText
import Pseudocode.Proofs.PrintedLayout

/-!
# Printing and parsing again

A tree that was parsed from a text, printed with any indent, is parsed to the same tree
up to locations, and prints as the same text again. The tokens of the printed text are
known by their kinds; here the grammar derives the tree from any tokens of these kinds.
-/
namespace Pseudocode

namespace Node
open Pseudocode.Parser

theorem sameAll_iff {as bs : List Node} :
    sameAll as bs = true ↔ List.Forall₂ (fun a b => a.same b = true) as bs := by
  induction as generalizing bs with
  | nil => cases bs <;> simp [sameAll]
  | cons a as ih => cases bs <;> simp [sameAll, ih]

/-- Same lines make the same implicit block. -/
theorem same_node {as bs : List Node} (h : sameAll as bs = true) :
    ((Group.block false).node as).same ((Group.block false).node bs) = true := by
  match as, bs, h with
  | [], [], _ => rfl
  | [_], [_], h => simpa [Group.node, sameAll] using h
  | _ :: _ :: _, _ :: _ :: _, h => simpa [Group.node, same] using h
  | [], _ :: _, h => simp [sameAll] at h
  | _ :: _, [], h => simp [sameAll] at h
  | [_], _ :: _ :: _, h => simp [sameAll] at h
  | _ :: _ :: _, [_], h => simp [sameAll] at h

/-- What the grammar derives from tokens of these kinds, as the next part of a sequence. -/
def Piece.Parsed : Piece → List Token.Kind → Prop
  | node n, kinds => ∀ tokens rest : List Token, tokens.map Token.kind = kinds →
      (n.rightmost.isVar = true → StandsAlone rest) →
      ∃ again : Node, again.same n = true ∧
        (∀ front nodes, Derives front (.sequence nodes) (tokens ++ rest) →
          Derives (front ++ tokens) (.sequence (nodes ++ [again])) rest) ∧
        (n.isOperation = false → Derives tokens (.operand again) rest)
  | items ns, kinds => ∀ tokens rest : List Token, tokens.map Token.kind = kinds →
      StandsAlone rest → ∃ again : List Node, sameAll again ns = true ∧
        ∀ front nodes, Derives front (.sequence nodes) (tokens ++ rest) →
          Derives (front ++ tokens) (.sequence (nodes ++ again)) rest
  | lines ns, kinds => ∀ tokens rest : List Token, tokens.map Token.kind = kinds →
      ∃ again : List Node, sameAll again ns = true ∧
        ∀ front nodes, Derives front (.sequence nodes) (tokens ++ rest) →
          Derives (front ++ tokens) (.sequence (nodes ++ again)) rest

section
variable {indent level : Int} {piece : Piece} {n : Node} {ls : List Lexeme}
  {kinds : List Token.Kind}

theorem standsAlone_of_kind {token : Token} {rest : List Token} (h : token.kind ≠ .arrow)
    (h' : token.kind ≠ .argumentsOpen) : StandsAlone (token :: rest) :=
  ⟨token, rest, rfl, h, h'⟩

/-- A printed tree starts an operand, and with a parenthesis only if a list comes first. -/
theorem Typeset.head_kinds (h : Typeset indent level (.node n) ls kinds) :
    ∃ kind more, kinds = kind :: more ∧ kind ≠ .arrow ∧
      (kind = .argumentsOpen → n.leftmost.isList = true) := by
  generalize hp : Piece.node n = piece at h
  induction h generalizing n with
  | number | text | var | assign | lambda | empty | block =>
      exact ⟨_, _, rfl, by simp, by simp⟩
  | call => exact ⟨_, _, rfl, by simp, by simp⟩
  | list =>
      cases hp
      exact ⟨_, _, rfl, by simp, fun _ => by simp [leftmost, isList]⟩
  | operation hn _ _ _ _ ihl _ =>
      cases hp
      obtain ⟨kind, more, rfl, ha, ho⟩ := ihl rfl
      exact ⟨kind, _, rfl, ha, by rwa [leftmost_operation hn]⟩
  | noItem | oneItem | moreItems | noLine | moreLines => cases hp

theorem Typeset.head_items {ns : List Node} (h : Typeset indent level (.items (n :: ns)) ls kinds) :
    ∃ kind more, kinds = kind :: more ∧ kind ≠ .arrow ∧
      (kind = .argumentsOpen → n.leftmost.isList = true) := by
  cases h with
  | oneItem h => exact h.head_kinds
  | moreItems _ h _ =>
      obtain ⟨kind, more, rfl, hkind⟩ := h.head_kinds
      exact ⟨kind, _, rfl, hkind⟩

/-- An operand stands in a sequence. -/
theorem parsed_operand {tokens rest : List Token} {again : Node} (hs : again.same n = true)
    (h : Derives tokens (.operand again) rest) :
    ∃ again : Node, again.same n = true ∧
      (∀ front nodes, Derives front (.sequence nodes) (tokens ++ rest) →
        Derives (front ++ tokens) (.sequence (nodes ++ [again])) rest) ∧
      (n.isOperation = false → Derives tokens (.operand again) rest) :=
  ⟨again, hs, fun _ _ hf => hf.append h, fun _ => h⟩

theorem exists_closer {tokens : List Token} {kinds : List Token.Kind} {close : Token.Kind}
    (h : tokens.map Token.kind = kinds ++ [close]) :
    ∃ inner closer, tokens = inner ++ [closer] ∧ inner.map Token.kind = kinds ∧
      closer.kind = close := by
  obtain ⟨inner, closers, rfl, hin, hc⟩ := List.map_eq_append_iff.1 h
  obtain ⟨closer, rfl, hclose⟩ := List.map_eq_singleton_iff.1 hc
  exact ⟨inner, closer, rfl, hin, hclose⟩

theorem operator?_operatorKind (name : String) : (operatorKind name).operator? = some name := by
  unfold operatorKind
  split
  · rename_i h
    rw [h]
    rfl
  · rfl

/-- The grammar derives every printed piece from its tokens. -/
theorem Typeset.parsed (h : Typeset indent level piece ls kinds) : piece.Parsed kinds := by
  induction h with
  | number _ _ heq =>
      intro tokens rest ht _
      obtain ⟨token, rfl, hk⟩ := List.map_eq_singleton_iff.1 ht
      exact parsed_operand (by simpa [same, Literal.same] using heq) (.number hk)
  | text =>
      intro tokens rest ht _
      obtain ⟨token, rfl, hk⟩ := List.map_eq_singleton_iff.1 ht
      exact parsed_operand (by simp [same, Literal.same]) (.text hk)
  | var =>
      intro tokens rest ht halone
      obtain ⟨token, rfl, hk⟩ := List.map_eq_singleton_iff.1 ht
      exact parsed_operand (by simp [same]) (.name hk (halone (by simp [rightmost, isVar])))
  | assign _ _ ih =>
      intro tokens rest ht _
      obtain ⟨word, tokens, rfl, hw, ht⟩ := List.map_eq_cons_iff.1 ht
      obtain ⟨arrow, tokens, rfl, ha, ht⟩ := List.map_eq_cons_iff.1 ht
      obtain ⟨opener, tokens, rfl, ho, ht⟩ := List.map_eq_cons_iff.1 ht
      obtain ⟨inner, closer, rfl, hin, hc⟩ := exists_closer ht
      obtain ⟨value, hs, hseq, -⟩ := ih inner (closer :: rest) hin
        (fun _ => standsAlone_of_kind (by simp [hc]) (by simp [hc]))
      have hvalue : Derives inner (.sequence [value]) (closer :: rest) := hseq [] [] .empty
      exact parsed_operand (by simp [same, hs]) (.assign hw ha (.line ho hc hvalue))
  | lambda ho _ ih =>
      intro tokens rest ht halone
      obtain ⟨word, tokens, rfl, hw, ht⟩ := List.map_eq_cons_iff.1 ht
      obtain ⟨body, hs, -, hop⟩ := ih tokens rest ht (fun hv => halone (by rwa [rightmost]))
      exact parsed_operand (by simpa [same] using hs) (.lambda hw (hop ho))
  | @operation _ name _ _ _ _ _ _ _ hn _ ho _ _ ihl ihr =>
      intro tokens rest ht halone
      obtain ⟨tokens, more, rfl, hl, ht⟩ := List.map_eq_append_iff.1 ht
      obtain ⟨operator, more, rfl, hk, hr⟩ := List.map_eq_cons_iff.1 ht
      have hoperator : operator.kind.operator? = some name := by rw [hk, operator?_operatorKind]
      obtain ⟨left, hsl, hseq, -⟩ := ihl tokens (operator :: (more ++ rest)) hl
        (fun _ => standsAlone_of_kind (by rintro h; simp [h, Token.Kind.operator?] at hoperator)
          (by rintro h; simp [h, Token.Kind.operator?] at hoperator))
      obtain ⟨right, hsr, -, hop⟩ := ihr more rest hr
        (fun hv => halone (by rwa [rightmost_operation hn]))
      refine ⟨.call name [left, right] (some operator.location), by simp [same, sameAll, hsl, hsr],
        fun front nodes hf => ?_, fun hno => by simp [isOperation_operation hn] at hno⟩
      rw [← List.append_assoc]
      refine .operate (hseq front nodes ?_) hoperator (hop ho)
      simpa using hf
  | call _ _ ih =>
      intro tokens rest ht _
      obtain ⟨word, tokens, rfl, hw, ht⟩ := List.map_eq_cons_iff.1 ht
      obtain ⟨opener, tokens, rfl, ho, ht⟩ := List.map_eq_cons_iff.1 ht
      obtain ⟨inner, closer, rfl, hin, hc⟩ := exists_closer ht
      obtain ⟨args, hs, hseq⟩ := ih inner (closer :: rest) hin
        (standsAlone_of_kind (by simp [hc]) (by simp [hc]))
      have hargs : Derives inner (.sequence args) (closer :: rest) := hseq [] [] .empty
      exact parsed_operand (by simp [same, hs]) (.call hw ho hc hargs)
  | list _ ih =>
      intro tokens rest ht _
      obtain ⟨opener, tokens, rfl, ho, ht⟩ := List.map_eq_cons_iff.1 ht
      obtain ⟨inner, closer, rfl, hin, hc⟩ := exists_closer ht
      obtain ⟨nodes, hs, hseq⟩ := ih inner (closer :: rest) hin
        (standsAlone_of_kind (by simp [hc]) (by simp [hc]))
      have hnodes : Derives inner (.sequence nodes) (closer :: rest) := hseq [] [] .empty
      exact parsed_operand (by simpa [same] using hs) (.list ho hc hnodes)
  | empty =>
      intro tokens rest ht _
      obtain ⟨opener, tokens, rfl, ho, ht⟩ := List.map_eq_cons_iff.1 ht
      obtain ⟨closer, rfl, hc⟩ := List.map_eq_singleton_iff.1 ht
      have hnone : Derives [] (.sequence []) (closer :: rest) := .empty
      exact parsed_operand (by simp [same, sameAll]) (.braces ho hc hnone)
  | block _ ih =>
      intro tokens rest ht _
      obtain ⟨opener, tokens, rfl, ho, ht⟩ := List.map_eq_cons_iff.1 ht
      obtain ⟨inner, closer, rfl, hin, hc⟩ := exists_closer ht
      obtain ⟨nodes, hs, hseq⟩ := ih inner (closer :: rest) hin
      have hnodes : Derives inner (.sequence nodes) (closer :: rest) := hseq [] [] .empty
      exact parsed_operand (by simpa [same] using hs) (.braces ho hc hnodes)
  | noItem =>
      intro tokens rest ht _
      obtain rfl := List.map_eq_nil_iff.1 ht
      exact ⟨[], rfl, fun front nodes hf => by simpa using hf⟩
  | oneItem _ ih =>
      intro tokens rest ht halone
      obtain ⟨again, hs, hseq, -⟩ := ih tokens rest ht (fun _ => halone)
      exact ⟨[again], by simp [sameAll, hs], hseq⟩
  | @moreItems _ n _ _ _ _ _ _ hadj _ hitems ihn ihs =>
      intro tokens rest ht halone
      obtain ⟨tokens, more, rfl, hn, hs⟩ := List.map_eq_append_iff.1 ht
      obtain ⟨kind, kinds, rfl, harrow, hlist⟩ := hitems.head_items
      have hnext : n.rightmost.isVar = true → StandsAlone (more ++ rest) := by
        intro hv
        obtain ⟨token, more, rfl, hk, -⟩ := List.map_eq_cons_iff.1 hs
        refine standsAlone_of_kind (by rwa [hk]) fun ho => ?_
        have hnot := hadj.2 hv
        rw [hlist (hk.symm.trans ho)] at hnot
        cases hnot
      obtain ⟨again, hsame, hseq, -⟩ := ihn tokens (more ++ rest) hn hnext
      obtain ⟨others, hsames, hseqs⟩ := ihs more rest hs halone
      refine ⟨again :: others, by simp [sameAll, hsame, hsames], fun front nodes hf => ?_⟩
      have hfirst := hseq front nodes (by simpa using hf)
      simpa using hseqs _ _ hfirst
  | noLine =>
      intro tokens rest ht
      obtain rfl := List.map_eq_nil_iff.1 ht
      exact ⟨[], rfl, fun front nodes hf => by simpa using hf⟩
  | moreLines _ _ ihn ihs =>
      intro tokens rest ht
      obtain ⟨opener, tokens, rfl, ho, ht⟩ := List.map_eq_cons_iff.1 ht
      obtain ⟨tokens, more, rfl, hn, ht⟩ := List.map_eq_append_iff.1 ht
      obtain ⟨closer, more, rfl, hc, hs⟩ := List.map_eq_cons_iff.1 ht
      obtain ⟨again, hsame, hseq, -⟩ := ihn tokens (closer :: (more ++ rest)) hn
        (fun _ => standsAlone_of_kind (by simp [hc]) (by simp [hc]))
      obtain ⟨others, hsames, hseqs⟩ := ihs more rest hs
      have hline : Derives tokens (.sequence [again]) (closer :: (more ++ rest)) :=
        hseq [] [] .empty
      refine ⟨again :: others, by simp [sameAll, hsame, hsames], fun front nodes hf => ?_⟩
      have hoperand : Derives (opener :: (tokens ++ [closer])) (.operand again) (more ++ rest) :=
        .line ho hc hline
      have hfirst := Derives.append (by simpa using hf) hoperand
      simpa using hseqs _ _ hfirst

end

/-- Printing depends on a list of trees through the text of each of them. -/
theorem renderItems_congr {indent level : Int} {as bs : List Node}
    (h : List.Forall₂ (fun a b => a.render indent level = b.render indent level) as bs) :
    renderItems indent level as = renderItems indent level bs := by
  induction h with
  | nil => rfl
  | cons hab htail ih =>
      cases htail with
      | nil => simpa [renderItems] using hab
      | cons => simp only [renderItems, hab, ih]

theorem renderLines_congr {indent level : Int} {as bs : List Node}
    (h : List.Forall₂ (fun a b => a.render indent level = b.render indent level) as bs) :
    renderLines indent level as = renderLines indent level bs := by
  induction h with
  | nil => rfl
  | cons hab _ ih => simp only [renderLines, hab, ih]

theorem isOperation_eq_of_same {a b : Node} (h : a.same b = true) :
    a.isOperation = b.isOperation := by
  cases a <;> cases b <;> simp only [same, Bool.false_eq_true] at h <;> try rfl
  case call.call name as p name' bs q =>
    rw [Bool.and_eq_true, beq_iff_eq, sameAll_iff] at h
    obtain ⟨rfl, has⟩ := h
    match as, bs, has with
    | _, _, .nil => rfl
    | _, _, .cons _ .nil => rfl
    | _, _, .cons _ (.cons _ .nil) => rfl
    | _, _, .cons _ (.cons _ (.cons _ _)) => rfl

theorem Shaped.args {name : String} {args : List Node} {location : Option Location}
    (h : (Node.call name args location).Shaped) : ∀ n ∈ args, n.Shaped := by
  cases h with
  | call _ hs _ => exact hs
  | operation _ hl hr _ _ => simp [hl, hr]

theorem forall₂_render {indent : Int} {as bs : List Node}
    (ih : ∀ a ∈ as, ∀ {b : Node}, b.Shaped → a.same b = true →
      ∀ level, a.render indent level = b.render indent level)
    (hbs : ∀ b ∈ bs, b.Shaped) (h : sameAll as bs = true) (level : Int) :
    List.Forall₂ (fun a b => a.render indent level = b.render indent level) as bs := by
  rw [sameAll_iff] at h
  induction h with
  | nil => exact .nil
  | cons hab _ ihs =>
      obtain ⟨hb, hbs⟩ := List.forall_mem_cons.1 hbs
      exact .cons (ih _ List.mem_cons_self hb hab level)
        (ihs (fun a ha => ih a (List.mem_cons_of_mem _ ha)) hbs)

theorem forall₂_pair {left right : Node} {bs : List Node}
    (h : List.Forall₂ (fun a b => a.same b = true) [left, right] bs) :
    ∃ left' right', bs = [left', right'] ∧ left.same left' = true ∧ right.same right' = true := by
  obtain ⟨left', rest, hl, hrest, rfl⟩ := List.forall₂_cons_left_iff.1 h
  obtain ⟨right', none, hr, hnone, rfl⟩ := List.forall₂_cons_left_iff.1 hrest
  obtain rfl := List.forall₂_nil_left_iff.1 hnone
  exact ⟨left', right', rfl, hl, hr⟩

/-- Shaped trees that differ in locations only have one text. -/
theorem Shaped.render_eq {a b : Node} (ha : a.Shaped) (hb : b.Shaped) (h : a.same b = true)
    (indent level : Int) : a.render indent level = b.render indent level := by
  induction ha generalizing b level with
  | @block as _ ih =>
      cases hb with
      | @block bs hbs =>
          rw [same] at h
          have hlines := renderLines_congr (forall₂_render ih hbs h (level + 1))
          rw [sameAll_iff] at h
          cases h with
          | nil => rfl
          | cons _ _ => simp only [render, hlines]
      | _ => simp [same] at h
  | list _ _ ih =>
      cases hb with
      | list hbs _ =>
          rw [same] at h
          simp only [render, renderItems_congr (forall₂_render ih hbs h level)]
      | _ => simp [same] at h
  | number =>
      cases hb with
      | number =>
          rw [same, Literal.same] at h
          simp only [render, Literal.render, Number.text_eq_of_beq h]
      | _ => simp [same, Literal.same] at h
  | text _ =>
      cases hb with
      | text _ =>
          rw [same, Literal.same, beq_iff_eq] at h
          rw [h]
      | _ => simp [same, Literal.same] at h
  | var _ =>
      cases hb with
      | var _ =>
          rw [same, beq_iff_eq] at h
          simp only [render, h]
      | _ => simp [same] at h
  | assign _ _ ih =>
      cases hb with
      | assign _ hv =>
          rw [same, Bool.and_eq_true, beq_iff_eq] at h
          simp only [render, h.1, ih hv h.2]
      | _ => simp [same] at h
  | lambda _ _ ih =>
      cases hb with
      | lambda hv _ =>
          rw [same] at h
          simp only [render, enclose, ih hv h, isOperation_eq_of_same h]
      | _ => simp [same] at h
  | call hname _ _ ih =>
      cases b with
      | call name' bs q =>
          have hbs := hb.args
          rw [same, Bool.and_eq_true, beq_iff_eq] at h
          obtain ⟨rfl, hs⟩ := h
          rw [render_call hname.not_mem_operatorNames, render_call hname.not_mem_operatorNames,
            renderItems_congr (forall₂_render ih hbs hs level)]
      | _ => simp [same] at h
  | operation hname _ _ _ _ ihl ihr =>
      cases b with
      | call name' bs q =>
          have hbs := hb.args
          rw [same, Bool.and_eq_true, beq_iff_eq, sameAll_iff] at h
          obtain ⟨rfl, hs⟩ := h
          obtain ⟨left, right, rfl, hl, hr⟩ := forall₂_pair hs
          have hleft := ihl (hbs left (by simp)) hl
          have hright := ihr (hbs right (by simp)) hr
          simp only [render, hname, if_true, enclose, hleft, hright, isOperation_eq_of_same hr]
      | _ => simp [same] at h

theorem statements_cases (tree : Node) :
    tree.statements = [tree] ∨ tree = Node.block tree.statements := by
  match tree with
  | .block [] | .block (_ :: _ :: _) => exact .inr rfl
  | .block [_] => exact .inl rfl
  | .list _ | .literal _ | .var _ _ | .assign _ _ | .call _ _ _ | .lambda _ => exact .inl rfl

theorem Shaped.statements {tree : Node} (h : tree.Shaped) : ∀ n ∈ tree.statements, n.Shaped := by
  rcases statements_cases tree with heq | heq
  · simpa [heq] using h
  · rw [heq] at h
    cases h with
    | block hs => exact hs

theorem mem_numbers_of_statements {tree n : Node} {x : Float} (hn : n ∈ tree.statements)
    (hx : x ∈ n.numbers) : x ∈ tree.numbers := by
  rcases statements_cases tree with heq | heq
  · rw [heq, List.mem_singleton] at hn
    rwa [hn] at hx
  · rw [heq, numbers]
    exact mem_numbersAll hn hx

theorem sameAll_statements {a b : Node} (h : a.same b = true) :
    sameAll a.statements b.statements = true := by
  cases a <;> cases b <;> simp only [same, Bool.false_eq_true] at h
  case block.block as bs =>
    match as, bs, h with
    | [], [], _ => rfl
    | [_], [_], h => simpa [statements, sameAll, same] using h
    | _ :: _ :: _, _ :: _ :: _, h => exact h
    | [], _ :: _, h => simp [sameAll] at h
    | _ :: _, [], h => simp [sameAll] at h
    | [_], _ :: _ :: _, h => simp [sameAll] at h
    | _ :: _ :: _, [_], h => simp [sameAll] at h
  all_goals simpa [statements, sameAll, same] using h

theorem Shaped.programText_eq {a b : Node} (ha : a.Shaped) (hb : b.Shaped) (h : a.same b = true)
    (indent : Int) : a.programText indent = b.programText indent := by
  have hlines := renderLines_congr (forall₂_render
    (fun n hn _ hm hs level => (ha.statements n hn).render_eq hm hs indent level)
    hb.statements (sameAll_statements h) 0)
  rw [programText, programText, renderProgram_eq, renderProgram_eq, hlines]

/-- The grammar derives a printed program, up to locations. -/
theorem Typeset.derives_program {indent : Int} {tree : Node} {ls : List Lexeme}
    {kinds : List Token.Kind} (h : Typeset indent 0 (.lines tree.statements) ls kinds)
    {tokens : List Token}
    (ht : tokens.map Token.kind = .blockOpen false :: (kinds ++ [.blockClose])) :
    ∃ again : Node, again.same tree = true ∧ Derives tokens (.operand again) [] := by
  obtain ⟨opener, rest, rfl, ho, hrest⟩ := List.map_eq_cons_iff.1 ht
  obtain ⟨inner, closer, rfl, hin, hc⟩ := exists_closer hrest
  obtain ⟨lines, hs, hseq⟩ := h.parsed inner [closer] hin
  have hlines : Derives inner (.sequence lines) [closer] := hseq [] [] .empty
  refine ⟨(Group.block false).node lines, ?_, .block ho hc hlines⟩
  have hsame := same_node hs
  rwa [node_statements] at hsame

end Node

theorem Node.shaped_of_parse {source : String} {limit : Nat} {tree : Node}
    (h : parse source limit = .ok tree) : tree.Shaped := by
  cases ht : tokenize source with
  | error e =>
      rw [parse, ht] at h
      cases h
  | ok layout =>
      rw [parse_of_tokenize ht, eq_ofSource_of_tokenize ht] at h
      exact Parser.shaped_of_accepted (Parser.run_of_parseTokens h)

/-- A parsed tree, printed with any indent, is parsed again to the same tree up to locations, and
that tree prints as the same text, provided that every number in it reads back from its text. The
limit on nesting has to admit the tokens of the printed text. -/
theorem parse_programText (source : String) (limit : Nat) (tree : Node) (indent : Int)
    (h : parse source limit = .ok tree) (hx : ∀ x ∈ tree.numbers, Number.ReadsBack x) :
    ∃ (layout : Layout) (again : Node), tokenize (tree.programText indent) = .ok layout ∧
      (∀ limit', layout.tokens.size ≤ limit' →
        parse (tree.programText indent) limit' = .ok again) ∧
      again.same tree = true ∧ again.programText indent = tree.programText indent := by
  have hshape := Node.shaped_of_parse h
  obtain ⟨ls, kinds, hset⟩ := Node.exists_lines indent fun n hn =>
    (hshape.statements n hn).typeset indent
      (fun x hin => hx x (Node.mem_numbers_of_statements hn hin)) 0
  have htext : (tree.programText indent).toList = tree.renderProgram indent :=
    String.toList_ofList
  have htokenize : tokenize (tree.programText indent) =
      .ok (Layout.ofSource (tree.renderProgram indent)) := by
    rw [← htext]
    refine tokenize_of_closed fun l hl content hc => ?_
    rw [htext, Node.renderProgram_eq, hset.all_tail] at hl
    have hwritten := hset.written l (List.mem_of_mem_tail hl)
    rw [hc] at hwritten
    exact hwritten
  obtain ⟨again, hsame, hderives⟩ := hset.derives_program hset.kinds_program
  have hparse : ∀ limit', (Layout.ofSource (tree.renderProgram indent)).tokens.size ≤ limit' →
      parse (tree.programText indent) limit' = .ok again := by
    intro limit' hl
    rw [parse_of_tokenize htokenize]
    exact Parser.parseTokens_of_derives hderives (by simpa using hl)
  refine ⟨_, again, htokenize, hparse, hsame, ?_⟩
  exact (Node.shaped_of_parse (hparse _ (Nat.le_refl _))).programText_eq hshape hsame indent

/-- Two lines, with an assignment, a row of operands, an operation and braces. -/
theorem parse_programText_sample : ∃ tree : Node,
    parse "x <- 2 * (y LAMBDA y MOD 3)\n\x7b F(x) \x7d" = .ok tree ∧ tree.numbers = [2.0, 3.0] ∧
    ∃ (layout : Layout) (again : Node), tokenize (tree.programText 4) = .ok layout ∧
      (∀ limit, layout.tokens.size ≤ limit → parse (tree.programText 4) limit = .ok again) ∧
      again.same tree = true ∧ again.programText 4 = tree.programText 4 := by
  have hok : (parse "x <- 2 * (y LAMBDA y MOD 3)\n\x7b F(x) \x7d").toOption.map Node.numbers =
      some [2.0, 3.0] := by decide +kernel
  have hreads : ∀ x ∈ [2.0, 3.0], Number.ReadsBack x := by
    simp only [List.forall_mem_cons, List.not_mem_nil, false_implies, implies_true, and_true]
    exact ⟨⟨['2'], 2.0, by decide +kernel, by decide +kernel, by decide +kernel⟩,
      ⟨['3'], 3.0, by decide +kernel, by decide +kernel, by decide +kernel⟩⟩
  cases hp : parse "x <- 2 * (y LAMBDA y MOD 3)\n\x7b F(x) \x7d" with
  | error e => rw [hp] at hok; cases hok
  | ok tree =>
      rw [hp] at hok
      have hx : tree.numbers = [2.0, 3.0] := Option.some.inj hok
      exact ⟨tree, rfl, hx, parse_programText _ _ tree 4 hp (by rwa [hx])⟩

end Pseudocode
