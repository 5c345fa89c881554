import Pseudocode.Proofs.NumberSign
import Pseudocode.Proofs.Places
import Pseudocode.Proofs.RoundTrip

/-!
# Printed programs parse to their own trees

Trees are compared by `Node.same`, which takes a number for a boolean of the same value and
one zero for the other. In the tree of a text there are no booleans and no negative zeros,
so two such trees that are the same differ in their locations alone. Hence the text of a
parsed tree, if it is parsed again, has that tree at other places.
-/
namespace Pseudocode

/-- A literal as texts have them: no boolean, and no number with a sign. -/
def Literal.Plain : Literal → Prop
  | number x => Number.Unsigned x
  | text _ => True
  | boolean _ => False

theorem Literal.eq_of_same {a b : Literal} (ha : a.Plain) (hb : b.Plain)
    (h : a.same b = true) : a = b := by
  cases a with
  | number x =>
      cases b with
      | number y => rw [Number.eq_of_beq_of_unsigned ha hb h]
      | text t => cases h
      | boolean b => cases hb
  | text s =>
      cases b with
      | text t => rw [eq_of_beq h]
      | number y => cases h
      | boolean b => cases hb
  | boolean b => cases ha

namespace Node

def AllPlain (ns : List Node) : Prop := ∀ l, .literal l ∈ subtreesAll ns → l.Plain

theorem allPlain_cons {n : Node} {ns : List Node} :
    AllPlain (n :: ns) ↔ AllPlain [n] ∧ AllPlain ns := by
  rw [AllPlain, ← List.singleton_append, subtreesAll_append]
  simp only [List.mem_append, or_imp, forall_and]
  rfl

theorem AllPlain.below {n : Node} {ns : List Node} (h : AllPlain [n])
    (hbelow : n.subtrees = subtreesAll ns) : AllPlain ns := by
  intro l hl
  apply h l
  rw [subtreesAll_singleton, hbelow]
  exact List.mem_cons_of_mem _ hl

mutual

theorem unlocated_eq_of_same : (a b : Node) → AllPlain [a] → AllPlain [b] → a.same b = true →
    a.unlocated = b.unlocated
  | block as, b, ha, hb, h => by
      cases b with
      | block bs =>
          rw [unlocated, unlocated,
            unlocatedAll_eq_of_sameAll as bs (ha.below rfl) (hb.below rfl) h]
      | _ => simp [same] at h
  | list as, b, ha, hb, h => by
      cases b with
      | list bs =>
          rw [unlocated, unlocated,
            unlocatedAll_eq_of_sameAll as bs (ha.below rfl) (hb.below rfl) h]
      | _ => simp [same] at h
  | literal l, b, ha, hb, h => by
      cases b with
      | literal l' =>
          rw [Literal.eq_of_same (ha l (by simp)) (hb l' (by simp)) h]
      | _ => simp [same] at h
  | var name _, b, _, _, h => by
      cases b with
      | var name' _ => rw [unlocated, unlocated, eq_of_beq h]
      | _ => simp [same] at h
  | assign name v, b, ha, hb, h => by
      cases b with
      | assign name' w =>
          rw [same, Bool.and_eq_true, beq_iff_eq] at h
          have hvalue := unlocated_eq_of_same v w (ha.below (subtreesAll_singleton v).symm)
            (hb.below (subtreesAll_singleton w).symm) h.2
          rw [unlocated, unlocated, h.1, hvalue]
      | _ => simp [same] at h
  | call name as _, b, ha, hb, h => by
      cases b with
      | call name' bs _ =>
          rw [same, Bool.and_eq_true, beq_iff_eq] at h
          rw [unlocated, unlocated, h.1,
            unlocatedAll_eq_of_sameAll as bs (ha.below rfl) (hb.below rfl) h.2]
      | _ => simp [same] at h
  | lambda v, b, ha, hb, h => by
      cases b with
      | lambda w =>
          have hbody := unlocated_eq_of_same v w (ha.below (subtreesAll_singleton v).symm)
            (hb.below (subtreesAll_singleton w).symm) h
          rw [unlocated, unlocated, hbody]
      | _ => simp [same] at h

theorem unlocatedAll_eq_of_sameAll : (as bs : List Node) → AllPlain as → AllPlain bs →
    sameAll as bs = true → unlocatedAll as = unlocatedAll bs
  | [], [], _, _, _ => rfl
  | [], _ :: _, _, _, h => by simp [sameAll] at h
  | _ :: _, [], _, _, h => by simp [sameAll] at h
  | a :: as, b :: bs, ha, hb, h => by
      rw [sameAll, Bool.and_eq_true] at h
      obtain ⟨hfirst, hrest⟩ := allPlain_cons.1 ha
      obtain ⟨hfirst', hrest'⟩ := allPlain_cons.1 hb
      rw [unlocatedAll, unlocatedAll, unlocated_eq_of_same a b hfirst hfirst' h.1,
        unlocatedAll_eq_of_sameAll as bs hrest hrest' h.2]

end

end Node

theorem Lexeme.unsigned_of_kind? {l : Lexeme} {x : Float} (h : l.kind? = some (.number x)) :
    Number.Unsigned x := by
  cases l with
  | word content => exact Token.Kind.unsigned_of_ofWord (Option.some.inj h)
  | _ => cases h

/-- The tree of a text has plain literals. -/
theorem allPlain_of_parseTokens {source : String} {limit : Nat} {layout : Layout} {tree : Node}
    (ht : tokenize source = .ok layout) (h : parseTokens limit layout.tokens.toList = .ok tree) :
    Node.AllPlain [tree] := by
  intro l hl
  have hread := allReadIn_of_parseTokens h _ hl
  cases l with
  | number x =>
      obtain ⟨t, htoken, hk⟩ := hread
      have htells := Layout.tells_ofSource source.toList
      rw [← eq_ofSource_of_tokenize ht] at htells
      have hw : ¬ t.kind.Wraps := by
        rintro (hk' | hk') <;> rw [hk] at hk' <;> cases hk'
      obtain ⟨p, lexeme, -, hlexeme, -⟩ := htells.read.exists_lexeme htoken hw
      rw [hk] at hlexeme
      exact Lexeme.unsigned_of_kind? hlexeme
  | text content => trivial
  | boolean b => exact hread

/-- The text of a parsed tree has tokens, and the grammar derives the same tree from them. -/
theorem derives_programText {source : String} {limit : Nat} {tree : Node}
    (h : parse source limit = .ok tree) (hx : ∀ x ∈ tree.numbers, Number.ReadsBack x)
    (indent : Int) :
    ∃ layout again, tokenize (tree.programText indent) = .ok layout ∧
      Parser.Derives layout.tokens.toList (.operand again) [] ∧ again.same tree = true := by
  have hshape := Node.shaped_of_parse h
  obtain ⟨ls, kinds, hset⟩ := Node.exists_lines indent fun n hn =>
    (hshape.statements n hn).typeset indent
      (fun x hin => hx x (Node.mem_numbers_of_statements hn hin)) 0
  have htext : (tree.programText indent).toList = tree.renderProgram indent :=
    String.toList_ofList
  have htokenize : tokenize (tree.programText indent) =
      .ok (Layout.ofSource (tree.renderProgram indent)) := by
    rw [← htext]
    refine tokenize_of_closed fun l hl content hc => ?_
    rw [htext, Node.renderProgram_eq, hset.all_tail] at hl
    have hwritten := hset.written l (List.mem_of_mem_tail hl)
    rw [hc] at hwritten
    exact hwritten
  obtain ⟨again, hsame, hderives⟩ := hset.derives_program hset.kinds_program
  exact ⟨_, again, htokenize, hderives, hsame⟩

/-- The text of a parsed tree is parsed to the same tree at other places, unless the text nests
deeper than the limit admits. -/
theorem reparse {source : String} {limit : Nat} {tree : Node} (h : parse source limit = .ok tree)
    (hx : ∀ x ∈ tree.numbers, Number.ReadsBack x) (indent : Int) :
    ∃ layout, tokenize (tree.programText indent) = .ok layout ∧
      ((limit < layout.tokens.size ∧ parseTokens limit layout.tokens.toList = .error .tooDeep) ∨
        ∃ again, parseTokens limit layout.tokens.toList = .ok again ∧
          again.unlocated = tree.unlocated) := by
  obtain ⟨layout, again, htokenize, hderives, hsame⟩ := derives_programText h hx indent
  refine ⟨layout, htokenize, ?_⟩
  by_cases ho : Parser.Overflows limit (.ready []) layout.tokens.toList
  · exact .inl ⟨by simpa using ho.lt_length, Parser.parseTokens_eq_tooDeep ho⟩
  · have hagain : parseTokens limit layout.tokens.toList = .ok again := by
      rw [Parser.parseTokens_eq_run ho, Parser.run_bind_finish_eq_ok, Parser.run_eq_complete_iff]
      exact hderives
    obtain ⟨before, ht⟩ := exists_layout_of_parse h
    rw [parse_of_tokenize ht] at h
    exact .inr ⟨again, hagain, Node.unlocated_eq_of_same again tree
      (allPlain_of_parseTokens htokenize hagain) (allPlain_of_parseTokens ht h) hsame⟩

end Pseudocode
