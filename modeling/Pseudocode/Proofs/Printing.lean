import Pseudocode.Proofs.Shape

/-!
# Printed trees as lexemes

`Typeset` says with which lexemes a tree is printed and which tokens they stand for,
rule by rule along the printer. Cutting the printed text gives these lexemes back: two
lexemes in a row never run into each other.
-/
namespace Pseudocode

namespace Lexeme

def Written : Lexeme → Prop
  | newline | arrow | less | parenOpen | parenClose | braceOpen | braceClose => True
  | blank c => c = ' '
  | ignored c => c = ','
  | operator c => c ∈ operatorChars
  | quoted content => '"' ∉ content
  | word content => IsWord content
  | unclosed _ => False

instance : DecidablePred Written
  | newline | arrow | less | parenOpen | parenClose | braceOpen | braceClose => isTrue trivial
  | blank c => inferInstanceAs (Decidable (c = ' '))
  | ignored c => inferInstanceAs (Decidable (c = ','))
  | operator c => inferInstanceAs (Decidable (c ∈ operatorChars))
  | quoted content => inferInstanceAs (Decidable ('"' ∉ content))
  | word content => inferInstanceAs (Decidable (IsWord content))
  | unclosed _ => isFalse id

/-- `b` written directly behind `a` leaves both what they are. -/
def Joins : Lexeme → Lexeme → Prop
  | word _, word _ => False
  | less, operator c => c ≠ '-'
  | _, _ => True

@[simp] theorem joins_blank (a : Lexeme) (c : Char) : Joins a (blank c) := by
  cases a <;> simp [Joins]

@[simp] theorem blank_joins (c : Char) (b : Lexeme) : Joins (blank c) b := by simp [Joins]

@[simp] theorem joins_newline (a : Lexeme) : Joins a newline := by
  cases a <;> simp [Joins]

theorem mem_signs_of_written {l : Lexeme} (h : l.Written) (hw : ∀ content, l ≠ word content) :
    ∃ c cs, l.chars = c :: cs ∧ c ∈ signs := by
  cases l with
  | newline => exact ⟨_, _, rfl, by decide⟩
  | arrow => exact ⟨_, _, rfl, by decide⟩
  | less => exact ⟨_, _, rfl, by decide⟩
  | parenOpen => exact ⟨_, _, rfl, by decide⟩
  | parenClose => exact ⟨_, _, rfl, by decide⟩
  | braceOpen => exact ⟨_, _, rfl, by decide⟩
  | braceClose => exact ⟨_, _, rfl, by decide⟩
  | blank c => cases h; exact ⟨_, _, rfl, by decide⟩
  | ignored c => cases h; exact ⟨_, _, rfl, by decide⟩
  | operator c => exact ⟨c, [], rfl, mem_signs_of_mem_operatorChars h⟩
  | quoted content => exact ⟨'"', content ++ ['"'], rfl, by decide⟩
  | word content => exact absurd rfl (hw content)
  | unclosed content => exact h.elim

theorem cut_word {c : Char} {cs rest : List Char} (h : IsWord (c :: cs))
    (hr : ∀ d ∈ rest.head?, d ∈ signs) : cut c (cs ++ rest) = (word (c :: cs), rest) := by
  have hc : c ∉ signs := h.not_mem_signs List.mem_cons_self
  have hstop : rest.takeWhile (continuesWord (Text.isDigit c)) = [] ∧
      rest.dropWhile (continuesWord (Text.isDigit c)) = rest := by
    cases rest with
    | nil => exact ⟨rfl, rfl⟩
    | cons d ds => simp [continuesWord_of_mem_signs (hr d rfl)]
  rw [cut_eq_cutPlain (fun hb => hc (mem_signs_of_mem_breaks hb)), cutPlain,
    if_neg (fun ho => hc (mem_signs_of_mem_operatorChars ho)), if_pos h.1, cutWord,
    List.takeWhile_append_of_pos h.2, List.dropWhile_append_of_pos h.2, hstop.1, hstop.2,
    List.append_nil]

theorem cutQuoted_append {content : List Char} (h : '"' ∉ content) (rest : List Char) :
    cutQuoted (content ++ '"' :: rest) = (quoted content, rest) := by
  have hall : ∀ c ∈ content, (c != '"') = true := by
    intro c hc
    simp only [bne_iff_ne, ne_eq]
    rintro rfl
    exact h hc
  simp [cutQuoted, List.takeWhile_append_of_pos hall, List.dropWhile_append_of_pos hall]

/-- A written lexeme is cut off what follows it. -/
theorem all_chars_append {l : Lexeme} (h : l.Written) {rest : List Char}
    (hword : ∀ content, l = word content → ∀ d ∈ rest.head?, d ∈ signs)
    (hless : l = less → rest.head? ≠ some '-') : all (l.chars ++ rest) = l :: all rest := by
  cases l with
  | newline | arrow | parenOpen | parenClose | braceOpen | braceClose =>
      simp only [chars, List.cons_append, List.nil_append, all_cons]
      rfl
  | less =>
      rw [chars, List.cons_append, List.nil_append, all_cons, cut_less (hless rfl)]
  | blank c =>
      cases h
      have hplain : cutPlain ' ' rest = (blank ' ', rest) := by
        rw [cutPlain, if_neg (by decide), if_neg (by decide +kernel), if_pos (by decide +kernel)]
      rw [chars, List.cons_append, List.nil_append, all_cons, cut_eq_cutPlain (by decide), hplain]
  | ignored c =>
      cases h
      have hplain : cutPlain ',' rest = (ignored ',', rest) := by
        rw [cutPlain, if_neg (by decide), if_neg (by decide +kernel), if_neg (by decide +kernel)]
      rw [chars, List.cons_append, List.nil_append, all_cons, cut_eq_cutPlain (by decide), hplain]
  | operator c =>
      have hplain : cutPlain c rest = (operator c, rest) := if_pos h
      rw [chars, List.cons_append, List.nil_append, all_cons,
        cut_eq_cutPlain (not_mem_breaks_of_mem_operatorChars c h), hplain]
  | quoted content =>
      have hcut : cut '"' (content ++ '"' :: rest) = (quoted content, rest) :=
        cutQuoted_append h rest
      rw [chars, List.append_assoc, List.cons_append, all_cons, List.singleton_append, hcut]
  | word content =>
      cases content with
      | nil => exact h.elim
      | cons c cs => rw [chars, List.cons_append, all_cons, cut_word h (hword _ rfl)]
  | unclosed content => exact h.elim

/-- Written lexemes that join are found again in their text. -/
theorem all_flatMap_chars {ls : List Lexeme} (hw : ∀ l ∈ ls, l.Written) (hj : ls.IsChain Joins) :
    all (ls.flatMap chars) = ls := by
  induction ls with
  | nil => exact all_nil
  | cons l ls ih =>
      obtain ⟨hl, hls⟩ := List.forall_mem_cons.1 hw
      obtain ⟨hnext, hj⟩ := List.isChain_cons.1 hj
      rw [List.flatMap_cons, all_chars_append hl ?_ ?_, ih hls hj]
      · rintro content rfl d hd
        cases ls with
        | nil => cases hd
        | cons next ls =>
            have hjoin := hnext next rfl
            obtain ⟨c, cs, hc, hs⟩ := mem_signs_of_written (hls next List.mem_cons_self)
              (by rintro content' rfl; exact hjoin)
            rw [List.flatMap_cons, hc] at hd
            cases hd
            exact hs
      · rintro rfl hd
        cases ls with
        | nil => cases hd
        | cons next ls =>
            have hjoin := hnext next rfl
            have hwritten := hls next List.mem_cons_self
            rw [List.flatMap_cons] at hd
            cases next with
            | operator c => exact hjoin (by simpa [chars] using hd)
            | word content =>
                cases content with
                | nil => exact hwritten.elim
                | cons c cs =>
                    have hc : c = '-' := by simpa [chars] using hd
                    have hsign : c ∈ signs := by rw [hc]; decide
                    have hcs : IsWord (c :: cs) := hwritten
                    exact hcs.not_mem_signs List.mem_cons_self hsign
            | blank c | ignored c => cases hwritten; simp [chars] at hd
            | unclosed content => exact hwritten
            | _ => simp [chars] at hd

end Lexeme

namespace Number

/-- The text of a number is one word, and that word is a number of the same value. -/
def ReadsBack (x : Float) : Prop :=
  ∃ word y, Lexeme.all (text x).toList = [.word word] ∧ Token.Kind.ofWord word = .number y ∧
    (y == x) = true

theorem ReadsBack.isWord {x : Float} (h : ReadsBack x) :
    Lexeme.IsWord (text x).toList ∧
      ∃ y, Token.Kind.ofWord (text x).toList = .number y ∧ (y == x) = true := by
  obtain ⟨word, y, hall, hk, heq⟩ := h
  have hchars := Lexeme.flatMap_chars_all (text x).toList
  have hproper : Lexeme.Proper (.word word) := Lexeme.proper_of_mem_all (by rw [hall]; simp)
  rw [hall, List.flatMap_singleton, Lexeme.chars] at hchars
  rw [← hchars]
  exact ⟨hproper, y, hk, heq⟩

end Number

namespace Node

mutual

def numbers : Node → List Float
  | block children | list children | call _ children _ => numbersAll children
  | literal (.number x) => [x]
  | literal _ | var _ _ => []
  | assign _ value => numbers value
  | lambda body => numbers body

def numbersAll : List Node → List Float
  | [] => []
  | n :: ns => numbers n ++ numbersAll ns

end

theorem mem_numbersAll {x : Float} {n : Node} {ns : List Node} (hn : n ∈ ns)
    (hx : x ∈ n.numbers) : x ∈ numbersAll ns := by
  induction ns with
  | nil => cases hn
  | cons m ns ih =>
      rw [numbersAll, List.mem_append]
      rcases List.mem_cons.1 hn with rfl | hn
      · exact .inl hx
      · exact .inr (ih hn)

def operatorLexeme (name : String) : Lexeme :=
  if name = "<" then .less
  else if name ∈ Token.operatorWords then .word name.toList
  else .operator name.front

def operatorKind (name : String) : Token.Kind := if name = "<" then .less else .operation name

/-- What the printer writes at one level: a tree, trees in parentheses or trees on lines. -/
inductive Piece where
  | node (n : Node)
  | items (ns : List Node)
  | lines (ns : List Node)

def blanks (indent level : Int) : List Lexeme :=
  List.replicate (indent.toNat * level.toNat) (.blank ' ')

/-- `Typeset indent level piece ls kinds`: the piece is printed as the lexemes, and they stand for
the tokens. -/
inductive Typeset (indent : Int) : Int → Piece → List Lexeme → List Token.Kind → Prop
  | number {level : Int} {x y : Float} : Lexeme.IsWord (Number.text x).toList →
      Token.Kind.ofWord (Number.text x).toList = .number y → (y == x) = true →
      Typeset indent level (.node (literal (.number x))) [.word (Number.text x).toList] [.number y]
  | text {level : Int} {content : String} : '"' ∉ content.toList →
      Typeset indent level (.node (literal (.text content))) [.quoted content.toList]
        [.text content]
  | var {level : Int} {name : String} {location : Option Location} : IsName name →
      Typeset indent level (.node (var name location)) [.word name.toList] [.identifier name]
  | assign {level : Int} {name : String} {value : Node} {ls : List Lexeme}
      {kinds : List Token.Kind} : IsName name → Typeset indent level (.node value) ls kinds →
      Typeset indent level (.node (assign name value))
        (.word name.toList :: .blank ' ' :: .arrow :: .blank ' ' :: ls)
        (.identifier name :: .arrow :: .blockOpen false :: (kinds ++ [.blockClose]))
  | lambda {level : Int} {body : Node} {ls : List Lexeme} {kinds : List Token.Kind} :
      body.isOperation = false → Typeset indent level (.node body) ls kinds →
      Typeset indent level (.node (lambda body)) (.word "LAMBDA".toList :: .blank ' ' :: ls)
        (.lambda :: kinds)
  | operation {level : Int} {name : String} {left right : Node} {location : Option Location}
      {ls ls' : List Lexeme} {kinds kinds' : List Token.Kind} : name ∈ operatorNames →
      left.rightmost.isAssign = false → right.isOperation = false →
      Typeset indent level (.node left) ls kinds → Typeset indent level (.node right) ls' kinds' →
      Typeset indent level (.node (call name [left, right] location))
        (ls ++ .blank ' ' :: operatorLexeme name :: .blank ' ' :: ls')
        (kinds ++ operatorKind name :: kinds')
  | call {level : Int} {name : String} {args : List Node} {location : Option Location}
      {ls : List Lexeme} {kinds : List Token.Kind} : IsName name →
      Typeset indent level (.items args) ls kinds →
      Typeset indent level (.node (call name args location))
        (.word name.toList :: .parenOpen :: (ls ++ [.parenClose]))
        (.identifier name :: .argumentsOpen :: (kinds ++ [.argumentsClose]))
  | list {level : Int} {children : List Node} {ls : List Lexeme} {kinds : List Token.Kind} :
      Typeset indent level (.items children) ls kinds →
      Typeset indent level (.node (list children)) (.parenOpen :: (ls ++ [.parenClose]))
        (.argumentsOpen :: (kinds ++ [.argumentsClose]))
  | empty {level : Int} :
      Typeset indent level (.node (block [])) [.braceOpen, .braceClose]
        [.blockOpen true, .blockClose]
  | block {level : Int} {n : Node} {ns : List Node} {ls : List Lexeme} {kinds : List Token.Kind} :
      Typeset indent (level + 1) (.lines (n :: ns)) ls kinds →
      Typeset indent level (.node (block (n :: ns)))
        (.braceOpen :: (ls ++ .newline :: (blanks indent level ++ [.braceClose])))
        (.blockOpen true :: (kinds ++ [.blockClose]))
  | noItem {level : Int} : Typeset indent level (.items []) [] []
  | oneItem {level : Int} {n : Node} {ls : List Lexeme} {kinds : List Token.Kind} :
      Typeset indent level (.node n) ls kinds → Typeset indent level (.items [n]) ls kinds
  | moreItems {level : Int} {n m : Node} {ns : List Node} {ls ls' : List Lexeme}
      {kinds kinds' : List Token.Kind} : Adjacent n m → Typeset indent level (.node n) ls kinds →
      Typeset indent level (.items (m :: ns)) ls' kinds' →
      Typeset indent level (.items (n :: m :: ns)) (ls ++ .ignored ',' :: .blank ' ' :: ls')
        (kinds ++ kinds')
  | noLine {level : Int} : Typeset indent level (.lines []) [] []
  | moreLines {level : Int} {n : Node} {ns : List Node} {ls ls' : List Lexeme}
      {kinds kinds' : List Token.Kind} : Typeset indent level (.node n) ls kinds →
      Typeset indent level (.lines ns) ls' kinds' →
      Typeset indent level (.lines (n :: ns)) (.newline :: (blanks indent level ++ (ls ++ ls')))
        (.blockOpen false :: (kinds ++ .blockClose :: kinds'))

section
variable (indent : Int)

theorem exists_items {level : Int} {ns : List Node} (hc : ns.IsChain Adjacent)
    (h : ∀ n ∈ ns, ∃ ls kinds, Typeset indent level (.node n) ls kinds) :
    ∃ ls kinds, Typeset indent level (.items ns) ls kinds := by
  induction ns with
  | nil => exact ⟨_, _, .noItem⟩
  | cons n ns ih =>
      obtain ⟨ls, kinds, hn⟩ := h n List.mem_cons_self
      cases ns with
      | nil => exact ⟨_, _, .oneItem hn⟩
      | cons m ns =>
          obtain ⟨hadj, hchain⟩ := List.isChain_cons.1 hc
          obtain ⟨ls', kinds', hns⟩ := ih hchain fun k hk => h k (List.mem_cons_of_mem n hk)
          exact ⟨_, _, .moreItems (hadj m rfl) hn hns⟩

theorem exists_lines {level : Int} {ns : List Node}
    (h : ∀ n ∈ ns, ∃ ls kinds, Typeset indent level (.node n) ls kinds) :
    ∃ ls kinds, Typeset indent level (.lines ns) ls kinds := by
  induction ns with
  | nil => exact ⟨_, _, .noLine⟩
  | cons n ns ih =>
      obtain ⟨ls, kinds, hn⟩ := h n List.mem_cons_self
      obtain ⟨ls', kinds', hns⟩ := ih fun k hk => h k (List.mem_cons_of_mem n hk)
      exact ⟨_, _, .moreLines hn hns⟩

/-- Every shaped tree is printed by the rules, as long as its numbers read back. -/
theorem Shaped.typeset {n : Node} (h : n.Shaped) (hx : ∀ x ∈ n.numbers, Number.ReadsBack x)
    (level : Int) : ∃ ls kinds, Typeset indent level (.node n) ls kinds := by
  induction h generalizing level with
  | @block children _ ih =>
      cases children with
      | nil => exact ⟨_, _, .empty⟩
      | cons n ns =>
          obtain ⟨ls, kinds, hl⟩ := exists_lines indent fun k hk =>
            ih k hk (fun x hin => hx x (by rw [numbers]; exact mem_numbersAll hk hin)) (level + 1)
          exact ⟨_, _, .block hl⟩
  | list _ hc ih =>
      obtain ⟨ls, kinds, hl⟩ := exists_items indent hc fun k hk =>
        ih k hk (fun x hin => hx x (by rw [numbers]; exact mem_numbersAll hk hin)) level
      exact ⟨_, _, .list hl⟩
  | @number x =>
      obtain ⟨hw, y, hk, heq⟩ := (hx x (by simp [numbers])).isWord
      exact ⟨_, _, .number hw hk heq⟩
  | text hq => exact ⟨_, _, .text hq⟩
  | var hn => exact ⟨_, _, .var hn⟩
  | assign hn _ ih =>
      obtain ⟨ls, kinds, hv⟩ := ih (fun x hin => hx x (by rwa [numbers])) level
      exact ⟨_, _, .assign hn hv⟩
  | call hn _ hc ih =>
      obtain ⟨ls, kinds, hl⟩ := exists_items indent hc fun k hk =>
        ih k hk (fun x hin => hx x (by rw [numbers]; exact mem_numbersAll hk hin)) level
      exact ⟨_, _, .call hn hl⟩
  | @operation name left right location hn _ _ ha ho ihl ihr =>
      have hargs : ∀ n ∈ [left, right], ∀ x ∈ n.numbers, Number.ReadsBack x :=
        fun n hn x hin => hx x (by rw [numbers]; exact mem_numbersAll hn hin)
      obtain ⟨ls, kinds, hl⟩ := ihl (hargs left (by simp)) level
      obtain ⟨ls', kinds', hr⟩ := ihr (hargs right (by simp)) level
      exact ⟨_, _, .operation hn ha ho hl hr⟩
  | lambda _ ho ih =>
      obtain ⟨ls, kinds, hb⟩ := ih (fun x hin => hx x (by rwa [numbers])) level
      exact ⟨_, _, .lambda ho hb⟩

end

def Piece.render (indent level : Int) : Piece → List Char
  | node n => n.render indent level
  | items ns => renderItems indent level ns
  | lines ns => renderLines indent level ns

theorem flatMap_chars_blanks (indent level : Int) :
    (blanks indent level).flatMap Lexeme.chars = margin indent level := by
  rw [blanks, margin]
  induction indent.toNat * level.toNat with
  | zero => rfl
  | succ k ih => simp [List.replicate_succ, ih, Lexeme.chars]

theorem chars_operatorLexeme :
    ∀ name ∈ operatorNames, (operatorLexeme name).chars = name.toList := by decide +kernel

theorem written_operatorLexeme : ∀ name ∈ operatorNames, (operatorLexeme name).Written := by
  decide +kernel

theorem render_call {name : String} (h : name ∉ operatorNames) (args : List Node)
    (location : Option Location) (indent level : Int) :
    (call name args location).render indent level =
      name.toList ++ '(' :: renderItems indent level args ++ [')'] := by
  match args with
  | [] | [_] | _ :: _ :: _ :: _ => simp [render]
  | [left, right] => simp [render, h, renderItems]

section
variable {indent level : Int} {piece : Piece} {ls : List Lexeme} {kinds : List Token.Kind}

/-- The rules print what the printer prints. -/
theorem Typeset.flatMap_chars (h : Typeset indent level piece ls kinds) :
    ls.flatMap Lexeme.chars = piece.render indent level := by
  induction h with
  | number => simp [Piece.render, render, Literal.render, Lexeme.chars]
  | text => simp [Piece.render, render, Literal.render, Lexeme.chars]
  | var => simp [Piece.render, render, Lexeme.chars]
  | assign _ _ ih => simpa [Piece.render, render, Lexeme.chars] using ih
  | lambda ho _ ih => simpa [Piece.render, render, Lexeme.chars, enclose, ho] using ih
  | operation hn _ ho _ _ ihl ihr =>
      simp only [Piece.render] at ihl ihr
      rw [List.flatMap_append, List.flatMap_cons, List.flatMap_cons, List.flatMap_cons, ihl, ihr,
        chars_operatorLexeme _ hn, Piece.render, render, if_pos hn, enclose, ho]
      simp [Lexeme.chars]
  | call hn _ ih =>
      simp only [Piece.render] at ih
      simp [Piece.render, render_call hn.not_mem_operatorNames, Lexeme.chars, ih]
  | list _ ih =>
      simp only [Piece.render] at ih
      simp [Piece.render, render, Lexeme.chars, ih]
  | empty => simp [Piece.render, render, Lexeme.chars]
  | block _ ih =>
      simp only [Piece.render] at ih
      simp [Piece.render, render, Lexeme.chars, ih, flatMap_chars_blanks]
  | noItem => simp [Piece.render, renderItems]
  | oneItem _ ih => simpa [Piece.render, renderItems] using ih
  | moreItems _ _ _ ihn ihs =>
      simp only [Piece.render] at ihn ihs
      simp [Piece.render, renderItems, Lexeme.chars, ihn, ihs]
  | noLine => simp [Piece.render, renderLines]
  | moreLines _ _ ihn ihs =>
      simp only [Piece.render] at ihn ihs
      simp [Piece.render, renderLines, Lexeme.chars, ihn, ihs, flatMap_chars_blanks]

theorem written_blanks : ∀ l ∈ blanks indent level, l.Written := by
  intro l hl
  rw [List.eq_of_mem_replicate hl]
  rfl

theorem Typeset.written (h : Typeset indent level piece ls kinds) : ∀ l ∈ ls, l.Written := by
  have hlambda : (Lexeme.word "LAMBDA".toList).Written := by decide +kernel
  induction h with
  | number hw => exact List.forall_mem_singleton.2 hw
  | text hq => exact List.forall_mem_singleton.2 hq
  | var hn => exact List.forall_mem_singleton.2 hn.1
  | assign hn _ ih =>
      simp only [List.forall_mem_cons]
      exact ⟨hn.1, rfl, trivial, rfl, ih⟩
  | lambda _ _ ih =>
      simp only [List.forall_mem_cons]
      exact ⟨hlambda, rfl, ih⟩
  | operation hn _ _ _ _ ihl ihr =>
      simp only [List.forall_mem_append, List.forall_mem_cons]
      exact ⟨ihl, rfl, written_operatorLexeme _ hn, rfl, ihr⟩
  | call hn _ ih =>
      simp only [List.forall_mem_append, List.forall_mem_cons]
      exact ⟨hn.1, trivial, ih, trivial, by simp⟩
  | list _ ih =>
      simp only [List.forall_mem_append, List.forall_mem_cons]
      exact ⟨trivial, ih, trivial, by simp⟩
  | empty => simp [Lexeme.Written]
  | block _ ih =>
      simp only [List.forall_mem_append, List.forall_mem_cons]
      exact ⟨trivial, ih, trivial, written_blanks, trivial, by simp⟩
  | noItem | noLine => simp
  | oneItem _ ih => exact ih
  | moreItems _ _ _ ihn ihs =>
      simp only [List.forall_mem_append, List.forall_mem_cons]
      exact ⟨ihn, rfl, rfl, ihs⟩
  | moreLines _ _ ihn ihs =>
      simp only [List.forall_mem_append, List.forall_mem_cons]
      exact ⟨trivial, written_blanks, ihn, ihs⟩

theorem joined_blanks : (blanks indent level).IsChain Lexeme.Joins :=
  List.isChain_replicate_of_rel _ (by simp [Lexeme.Joins])

/-- Lines begin with a line break. -/
theorem Typeset.head_lines {ns : List Node} (h : Typeset indent level (.lines ns) ls kinds) :
    ∀ l ∈ ls.head?, l = .newline := by
  cases h with
  | noLine => simp
  | moreLines => simp

/-- Words and signs stand apart. -/
theorem Typeset.joined (h : Typeset indent level piece ls kinds) : ls.IsChain Lexeme.Joins := by
  induction h with
  | number | text | var | empty | noItem | noLine => simp [Lexeme.Joins]
  | assign _ _ ih => simp [List.isChain_cons, Lexeme.Joins, ih]
  | lambda _ _ ih => simp [List.isChain_cons, Lexeme.Joins, ih]
  | operation _ _ _ _ _ ihl ihr =>
      simp [List.isChain_cons, List.isChain_append, ihl, ihr]
  | call _ _ ih => simp [List.isChain_cons, List.isChain_append, Lexeme.Joins, ih]
  | list _ ih => simp [List.isChain_cons, List.isChain_append, Lexeme.Joins, ih]
  | block _ ih =>
      simp [List.isChain_cons, List.isChain_append, Lexeme.Joins, ih, joined_blanks]
  | oneItem _ ih => exact ih
  | moreItems _ _ _ ihn ihs =>
      simp [List.isChain_cons, List.isChain_append, Lexeme.Joins, ihn, ihs]
  | @moreLines level n ns ls ls' _ _ _ hs ihn ihs =>
      have hnext : (ls ++ ls').IsChain Lexeme.Joins := by
        refine List.isChain_append.2 ⟨ihn, ihs, fun a _ b hb => ?_⟩
        rw [hs.head_lines b hb]
        exact Lexeme.joins_newline a
      have hline : (blanks indent level ++ (ls ++ ls')).IsChain Lexeme.Joins := by
        refine List.isChain_append.2 ⟨joined_blanks, hnext, fun a ha b _ => ?_⟩
        rw [List.eq_of_mem_replicate (List.mem_of_mem_getLast? ha)]
        exact Lexeme.blank_joins ' ' b
      exact List.isChain_cons.2 ⟨fun b _ => by simp [Lexeme.Joins], hline⟩

end

end Node

end Pseudocode
