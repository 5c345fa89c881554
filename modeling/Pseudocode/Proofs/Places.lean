import Pseudocode.Proofs.Composition
import Pseudocode.Proofs.Descent

/-!
# What a tree has from its text

A node of a parsed tree has its number or text from a token, and so the name that it looks
up and the place where it does so. The token has them from a lexeme. So each name that the
tree of a source text looks up stands in the text where the tree says, and the literals of
the tree stand there too.
-/
namespace Pseudocode

/-- The name that a token says, of a variable, a function or an operator. -/
def Token.Kind.name? : Token.Kind → Option String
  | .identifier name => some name
  | kind => kind.operator?

theorem Token.Kind.name?_of_operator? {kind : Token.Kind} {name : String}
    (h : kind.operator? = some name) : kind.name? = some name := by
  cases kind <;> first | exact h | cases h

namespace Node

/-- The name that a tree looks up itself, and the trees that it has evaluated before. -/
def lookup? : Node → Option (String × List Node)
  | var name _ => some (name, [])
  | call name args _ => some (name, args)
  | _ => none

/-- The node's own number, text or name is that of one of the tokens, and if the node looks its
name up then it stands where the token does. -/
def ReadIn (tokens : List Token) : Node → Prop
  | literal (.number x) => ∃ t ∈ tokens, t.kind = .number x
  | literal (.text content) => ∃ t ∈ tokens, t.kind = .text content
  | literal (.boolean _) => False
  | var name location | call name _ location =>
      ∃ t ∈ tokens, t.kind.name? = some name ∧ location = some t.location
  | block _ | list _ | assign _ _ | lambda _ => True

theorem ReadIn.mono {tokens more : List Token} {n : Node} (h : n.ReadIn tokens)
    (hmore : tokens ⊆ more) : n.ReadIn more := by
  have hin {P : Token → Prop} : (∃ t ∈ tokens, P t) → ∃ t ∈ more, P t :=
    fun ⟨t, ht, hP⟩ => ⟨t, hmore ht, hP⟩
  cases n with
  | literal value =>
      cases value with
      | number x => exact hin h
      | text content => exact hin h
      | boolean b => exact h
  | var name location => exact hin h
  | call name args location => exact hin h
  | _ => trivial

theorem ReadIn.of_lookup? {tokens : List Token} {n : Node} {name : String} {args : List Node}
    (h : n.ReadIn tokens) (hname : n.lookup? = some (name, args)) :
    ∃ t ∈ tokens, t.kind.name? = some name ∧ n.location = some t.location := by
  cases n with
  | var name' location =>
      cases hname
      exact h
  | call name' args' location =>
      cases hname
      exact h
  | _ => cases hname

theorem subtreesAll_append (ns more : List Node) :
    subtreesAll (ns ++ more) = subtreesAll ns ++ subtreesAll more := by
  induction ns with
  | nil => rfl
  | cons n ns ih => simp [subtreesAll, ih]

@[simp] theorem subtreesAll_singleton (n : Node) : subtreesAll [n] = n :: n.subtrees := by
  simp [subtreesAll]

/-- The trees, and all below them, are read from the tokens. -/
def AllReadIn (tokens : List Token) (ns : List Node) : Prop :=
  ∀ n ∈ subtreesAll ns, n.ReadIn tokens

section
variable {tokens more : List Token} {ns : List Node}

theorem AllReadIn.mono (h : AllReadIn tokens ns) (hmore : tokens ⊆ more) : AllReadIn more ns :=
  fun n hn => (h n hn).mono hmore

theorem allReadIn_nil (tokens : List Token) : AllReadIn tokens [] := fun n hn => by cases hn

theorem allReadIn_append {others : List Node} :
    AllReadIn tokens (ns ++ others) ↔ AllReadIn tokens ns ∧ AllReadIn tokens others := by
  simp only [AllReadIn, subtreesAll_append, List.mem_append, or_imp, forall_and]

/-- A tree above others. -/
theorem AllReadIn.below {n : Node} (h : AllReadIn tokens ns) (hbelow : n.subtrees = subtreesAll ns)
    (hmore : tokens ⊆ more) (hn : n.ReadIn more) : AllReadIn more [n] := by
  intro b hb
  rw [subtreesAll_singleton, hbelow] at hb
  rcases List.mem_cons.1 hb with rfl | hb
  · exact hn
  · exact (h b hb).mono hmore

end

end Node

namespace Parser

open Node

def Phrase.nodes : Phrase → List Node
  | operand node => [node]
  | sequence nodes => nodes

/-- A derived phrase is read from its tokens. -/
theorem Derives.allReadIn {tokens rest : List Token} {phrase : Phrase}
    (h : Derives tokens phrase rest) : AllReadIn tokens phrase.nodes := by
  have hinner {opener closer : Token} {inner : List Token} :
      inner ⊆ opener :: (inner ++ [closer]) :=
    List.subset_cons_of_subset _ (List.subset_append_left _ _)
  induction h with
  | @number token _ _ hk =>
      exact (allReadIn_nil []).below rfl (List.nil_subset _) ⟨token, List.mem_cons_self, hk⟩
  | @text token _ _ hk =>
      exact (allReadIn_nil []).below rfl (List.nil_subset _) ⟨token, List.mem_cons_self, hk⟩
  | @name word name _ hword _ =>
      have hname : word.kind.name? = some name := by rw [hword]; rfl
      exact (allReadIn_nil []).below rfl (List.nil_subset _)
        ⟨word, List.mem_cons_self, hname, rfl⟩
  | assign _ _ _ ih => exact ih.below (subtreesAll_singleton _).symm (by simp) trivial
  | @call word opener closer name args tokens _ hword _ _ _ ih =>
      have hname : word.kind.name? = some name := by rw [hword]; rfl
      exact ih.below rfl (List.subset_cons_of_subset _ hinner)
        ⟨word, List.mem_cons_self, hname, rfl⟩
  | lambda _ _ ih => exact ih.below (subtreesAll_singleton _).symm (by simp) trivial
  | list _ _ _ ih => exact ih.below rfl hinner trivial
  | braces _ _ _ ih => exact ih.below rfl hinner trivial
  | lines _ _ _ _ ih => exact ih.below rfl hinner trivial
  | line _ _ _ ih => exact ih.mono hinner
  | empty => exact allReadIn_nil []
  | append _ _ ih ih' => exact allReadIn_append.2 ⟨ih.mono (by simp), ih'.mono (by simp)⟩
  | @operate operator name nodes left right tokens operand _ _ hoperator _ ih ih' =>
      obtain ⟨hnodes, hleft⟩ := allReadIn_append.1 ih
      have hoperands : AllReadIn (tokens ++ operator :: operand) ([left] ++ [right]) :=
        allReadIn_append.2 ⟨hleft.mono (by simp), ih'.mono (by simp)⟩
      refine allReadIn_append.2
        ⟨hnodes.mono (by simp), hoperands.below rfl (List.Subset.refl _) ?_⟩
      exact ⟨operator, by simp, Token.Kind.name?_of_operator? hoperator, rfl⟩

end Parser

theorem allReadIn_of_parseTokens {limit : Nat} {tokens : List Token} {tree : Node}
    (h : parseTokens limit tokens = .ok tree) : Node.AllReadIn tokens [tree] :=
  (Parser.run_eq_complete_iff.1 (Parser.run_of_parseTokens h)).allReadIn

/-- The name stands in the text at this place, as a token. -/
def StandsAt (source : String) (name : String) (l : Location) : Prop :=
  (∃ layout t, tokenize source = .ok layout ∧ t ∈ layout.tokens.toList ∧
    t.kind.name? = some name ∧ t.location = l) ∧
  ∃ before after, source.toList = before ++ name.toList ++ after ∧ l = .ofPosition (.after before)

theorem StandsAt.pointed? {source name : String} {l : Location} (h : StandsAt source name l) :
    l.pointed? = some l := by
  obtain ⟨-, before, after, -, rfl⟩ := h
  rfl

/-- A token that wraps no block was read from a lexeme, and stands there. -/
theorem ReadFrom.exists_lexeme {ls : List (Position × Lexeme)} {tokens : List Token}
    (h : ReadFrom ls tokens) {t : Token} (ht : t ∈ tokens) (hw : ¬ t.kind.Wraps) :
    ∃ p l, (p, l) ∈ ls ∧ l.kind? = some t.kind ∧ t.location = .ofPosition p := by
  induction h with
  | nil => cases ht
  | @token p l kind ls tokens hk _ ih =>
      rcases List.mem_cons.1 ht with rfl | ht
      · exact ⟨p, l, List.mem_cons_self, hk, rfl⟩
      · obtain ⟨q, l', hl', hrest⟩ := ih ht
        exact ⟨q, l', List.mem_cons_of_mem _ hl', hrest⟩
  | silent _ _ ih =>
      obtain ⟨q, l', hl', hrest⟩ := ih ht
      exact ⟨q, l', List.mem_cons_of_mem _ hl', hrest⟩
  | wrap hwraps _ ih =>
      rcases List.mem_cons.1 ht with rfl | ht
      · exact absurd hwraps hw
      · exact ih ht

/-- The text of a lexeme is the name that its token says. -/
theorem Lexeme.chars_of_name? {l : Lexeme} {kind : Token.Kind} {name : String}
    (hl : l.kind? = some kind) (hname : kind.name? = some name) : l.chars = name.toList := by
  cases l with
  | word content =>
      cases hl
      rw [Token.Kind.ofWord] at hname
      split at hname
      · cases hname
        simp [chars]
      · split at hname
        · cases hname
        · split at hname
          · split at hname
            · cases hname
            · cases hname
              simp [chars]
          · cases hname
            simp [chars]
  | operator c =>
      cases hl
      cases hname
      simp [chars]
  | less =>
      cases hl
      cases hname
      rfl
  | _ => first | cases hl; cases hname | cases hl

/-- The name that a token says stands in the text where the token does. -/
theorem standsAt_of_mem_tokens {source : String} {layout : Layout}
    (h : tokenize source = .ok layout) {t : Token} (ht : t ∈ layout.tokens.toList) {name : String}
    (hname : t.kind.name? = some name) : StandsAt source name t.location := by
  have htells := Layout.tells_ofSource source.toList
  rw [← eq_ofSource_of_tokenize h] at htells
  have hw : ¬ t.kind.Wraps := by
    rintro (hk | hk) <;> rw [hk] at hname <;> cases hname
  obtain ⟨p, l, hl, hk, hlocation⟩ := htells.read.exists_lexeme ht hw
  obtain ⟨before, rest, hsplit⟩ := List.append_of_mem hl
  have htext := Lexeme.flatMap_chars_place .start (Lexeme.all source.toList)
  rw [Lexeme.flatMap_chars_all, hsplit, List.flatMap_append, List.flatMap_cons,
    Lexeme.chars_of_name? hk hname] at htext
  refine ⟨⟨layout, t, h, ht, hname, rfl⟩, _, _, by rw [List.append_assoc]; exact htext.symm, ?_⟩
  rw [hlocation, Lexeme.position_of_place hsplit, Position.advance_start]

/-- All names that the tree of a text looks up stand in the text where the tree says. -/
theorem standsAt_of_parse {source : String} {limit : Nat} {tree n : Node} {name : String}
    {args : List Node} (h : parse source limit = .ok tree) (hn : n ∈ tree :: tree.subtrees)
    (hname : n.lookup? = some (name, args)) :
    ∃ l, n.location = some l ∧ StandsAt source name l := by
  obtain ⟨layout, ht⟩ := exists_layout_of_parse h
  rw [parse_of_tokenize ht] at h
  have hread := allReadIn_of_parseTokens h n (by simpa using hn)
  obtain ⟨t, htoken, hsays, hlocation⟩ := hread.of_lookup? hname
  exact ⟨t.location, hlocation, standsAt_of_mem_tokens ht htoken hsays⟩

end Pseudocode
