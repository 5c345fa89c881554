import Pseudocode.Proofs.Printing

/-!
# The layout of printed trees

Lexemes of a printed tree, laid out anywhere, add the tokens that they stand for. The
right-hand sides at the end of a tree stay open until the line or the bracket around
them ends, and their closers are due until then. A line adds its tokens when it ends.
-/
namespace Pseudocode.Layout

def kinds (s : Layout) : List Token.Kind := s.tokens.toList.map Token.kind

@[simp] theorem length_kinds (s : Layout) : s.kinds.length = s.tokens.size := by simp [kinds]

@[simp] theorem kinds_emit (s : Layout) (kind : Token.Kind) (p : Position) :
    (s.emit kind p).kinds = s.kinds ++ [kind] := by
  simp [kinds, emit]

@[simp] theorem kinds_openWith (s : Layout) (bracket : Bracket) (kind : Token.Kind)
    (p : Position) : (s.openWith bracket kind p).kinds = s.kinds ++ [kind] := by
  simp [kinds, openWith]

/-- Takes lexemes that stand at `p` into the layout. -/
def lay (s : Layout) (p : Position) (ls : List Lexeme) : Layout :=
  (Lexeme.place p ls).foldl step s

@[simp] theorem lay_nil (s : Layout) (p : Position) : s.lay p [] = s := rfl

@[simp] theorem lay_cons (s : Layout) (p : Position) (l : Lexeme) (ls : List Lexeme) :
    s.lay p (l :: ls) = (s.step (p, l)).lay (p.advance l.chars) ls := rfl

theorem lay_append_at (s : Layout) (p : Position) (ls more : List Lexeme) :
    s.lay p (ls ++ more) = (s.lay p ls).lay (p.advance (ls.flatMap Lexeme.chars)) more := by
  induction ls generalizing s p with
  | nil => rfl
  | cons l ls ih => rw [List.cons_append, lay_cons, ih, lay_cons, List.flatMap_cons,
      Position.advance_append]

theorem lay_append (s : Layout) (p : Position) (ls more : List Lexeme) :
    ∃ q, s.lay p (ls ++ more) = (s.lay p ls).lay q more := ⟨_, lay_append_at s p ls more⟩

theorem lay_blanks (s : Layout) (p : Position) (indent level : Int) :
    s.lay p (Node.blanks indent level) = s := by
  rw [Node.blanks]
  induction indent.toNat * level.toNat generalizing p with
  | zero => rfl
  | succ k ih =>
      rw [List.replicate_succ, lay_cons]
      exact ih _

section
variable {s : Layout} {f : Frame} {rest new : List Frame}

theorem closeTop_of_filled (p : Position) (hf : s.frames = f :: rest)
    (hfill : f.opener + 1 < s.tokens.size) :
    s.closeTop p = ({ s with frames := rest } : Layout).emit .blockClose p := by
  rw [closeTop_of_frames p hf, closeBlock, if_neg (by omega)]
  rfl

/-- The end of right-hand sides that hold something closes each of them. -/
theorem closeArrows_of_filled (p : Position) (hf : s.frames = new ++ rest)
    (hnew : ∀ f ∈ new, f.bracket = .arrow ∧ f.opener + 1 < s.tokens.size)
    (hrest : ∀ f ∈ rest.head?, f.bracket ≠ .arrow) :
    (s.closeArrows p).frames = rest ∧
      (s.closeArrows p).kinds = s.kinds ++ List.replicate new.length .blockClose ∧
      s.tokens.size ≤ (s.closeArrows p).tokens.size := by
  induction new generalizing s with
  | nil =>
      rw [closeArrows_of_not_arrow p (by rw [hf]; exact hrest)]
      exact ⟨hf, by simp, Nat.le_refl _⟩
  | cons f new ih =>
      obtain ⟨⟨ha, hfill⟩, hmore⟩ := List.forall_mem_cons.1 hnew
      rw [List.cons_append] at hf
      rw [closeArrows_of_arrow p hf ha, closeTop_of_filled p hf hfill]
      obtain ⟨hframes, hkinds, hsize⟩ := ih
        (s := ({ s with frames := new ++ rest } : Layout).emit .blockClose p) rfl
        (fun g hg => ⟨(hmore g hg).1, by
          simp only [emit, Array.size_push]
          exact Nat.lt_succ_of_lt (hmore g hg).2⟩)
      refine ⟨hframes, ?_, ?_⟩
      · rw [hkinds, kinds_emit, List.length_cons, List.replicate_succ]
        simp [kinds]
      · simp only [emit, Array.size_push] at hsize ⊢
        omega

end

/-- `next` has tokens of these kinds behind those of `s`, once the new right-hand sides end. -/
structure Adds (kinds : List Token.Kind) (s next : Layout) (new : List Frame) : Prop where
  anchored : next.Anchored
  frames : next.frames = new ++ s.frames
  arrows : ∀ f ∈ new, f.bracket = .arrow ∧ f.opener + 1 < next.tokens.size
  kinds : next.kinds ++ List.replicate new.length .blockClose = s.kinds ++ kinds
  size_le : s.tokens.size ≤ next.tokens.size

/-- Anywhere in a text the lexemes add tokens of these kinds, at least one of them at once. Unless
`pending` they end all right-hand sides that they begin. -/
def Lays (pending : Bool) (ls : List Lexeme) (kinds : List Token.Kind) : Prop :=
  ∀ (s : Layout) (p : Position), s.Anchored →
    ∃ new, Adds kinds s (s.lay p ls) new ∧ s.tokens.size < (s.lay p ls).tokens.size ∧
      (pending = false → new = [])

section
variable {pending : Bool} {l : Lexeme} {ls ls' : List Lexeme} {kinds kinds' : List Token.Kind}

theorem Adds.refl {s : Layout} (hs : s.Anchored) : Adds [] s s [] :=
  ⟨hs, rfl, by simp, by simp, Nat.le_refl _⟩

theorem Lays.token {kind : Token.Kind} (h : ∀ s p, step s (p, l) = s.emit kind p) :
    Lays pending [l] [kind] := by
  intro s p hs
  have hsize : s.tokens.size < (s.emit kind p).tokens.size := by simp [emit]
  rw [lay_cons, lay_nil, h]
  exact ⟨[], ⟨hs.emit kind p, rfl, by simp, by simp, hsize.le⟩, hsize, fun _ => rfl⟩

theorem Adds.append {s middle next : Layout} {new : List Frame} (h : Adds kinds s middle [])
    (h' : Adds kinds' middle next new) : Adds (kinds ++ kinds') s next new := by
  have hkinds : middle.kinds = s.kinds ++ kinds := by simpa using h.kinds
  refine ⟨h'.anchored, ?_, h'.arrows, ?_, h.size_le.trans h'.size_le⟩
  · rw [h'.frames, h.frames, List.nil_append]
  · rw [h'.kinds, hkinds, List.append_assoc]

theorem Lays.append (h : Lays false ls kinds) (h' : Lays pending ls' kinds') :
    Lays pending (ls ++ ls') (kinds ++ kinds') := by
  intro s p hs
  obtain ⟨q, hq⟩ := lay_append s p ls ls'
  obtain ⟨new, hadds, hsize, hnil⟩ := h s p hs
  obtain rfl := hnil rfl
  obtain ⟨new, hadds', -, hnil⟩ := h' _ q hadds.anchored
  rw [hq]
  exact ⟨new, hadds.append hadds', hsize.trans_le hadds'.size_le, hnil⟩

/-- Blanks and ignored characters add nothing. -/
theorem Adds.skip {s next : Layout} {p : Position} {new : List Frame}
    (hl : (step s (p, l)).tokens = s.tokens ∧ (step s (p, l)).frames = s.frames)
    (h : Adds kinds (step s (p, l)) next new) : Adds kinds s next new := by
  obtain ⟨htokens, hframes⟩ := hl
  refine ⟨h.anchored, by rw [h.frames, hframes], h.arrows, ?_, by rw [← htokens]; exact h.size_le⟩
  rw [h.kinds, Layout.kinds, htokens, Layout.kinds]

theorem Lays.blank (h : Lays pending ls kinds) (c : Char) :
    Lays pending (.blank c :: ls) kinds :=
  fun s p hs => h s (p.advance [c]) hs

/-- An arrow opens a right-hand side that stays open. -/
theorem Lays.arrow (h : Lays pending ls kinds) :
    Lays true (.arrow :: ls) (.arrow :: .blockOpen false :: (kinds ++ [.blockClose])) := by
  intro s p hs
  obtain ⟨new, hadds, hsize, -⟩ := h (step s (p, .arrow)) (p.advance Lexeme.arrow.chars)
    (hs.step (p, .arrow))
  have hkinds : (step s (p, .arrow)).kinds = s.kinds ++ [.arrow, .blockOpen false] := by
    simp [step]
  have hopened : (step s (p, .arrow)).tokens.size = s.tokens.size + 2 := by
    simp [step, openWith, emit]
  rw [hopened] at hsize
  refine ⟨new ++ [⟨.arrow, s.tokens.size + 1⟩], ?_, ?_, by simp⟩
  · rw [lay_cons]
    refine ⟨hadds.anchored, ?_, ?_, ?_, by omega⟩
    · rw [hadds.frames]
      simp [step, openWith, emit]
    · intro f hf
      rcases List.mem_append.1 hf with hf | hf
      · exact hadds.arrows f hf
      · rw [List.mem_singleton.1 hf]
        exact ⟨rfl, hsize⟩
    · rw [List.length_append, List.length_singleton, List.replicate_succ', ← List.append_assoc,
        hadds.kinds, hkinds]
      simp
  · rw [lay_cons]
    omega

/-- A closing parenthesis ends the right-hand sides inside. -/
theorem Adds.closeParen {s inside : Layout} {p : Position} {new : List Frame}
    (h : Adds kinds (s.openWith .paren .argumentsOpen p) inside new) (q : Position) :
    Adds (.argumentsOpen :: (kinds ++ [.argumentsClose])) s (inside.closeParen q) [] := by
  obtain ⟨hframes, hkinds, hsize⟩ := closeArrows_of_filled q h.frames h.arrows (by simp [openWith])
  have hall : ({ inside.closeArrows q with frames := s.frames } : Layout).kinds =
      s.kinds ++ .argumentsOpen :: kinds := by
    have hk := hkinds.trans h.kinds
    rw [kinds_openWith, List.append_assoc] at hk
    exact hk
  have hle := h.size_le
  have hanchored := h.anchored.step (q, .parenClose)
  rw [step] at hanchored
  rw [closeParen_of_paren q hframes rfl] at hanchored ⊢
  refine ⟨hanchored, rfl, by simp, ?_, ?_⟩
  · rw [kinds_emit, hall]
    simp
  · simp only [openWith, emit, Array.size_push] at hle ⊢
    omega

theorem Lays.paren (h : ∀ s p, s.Anchored → ∃ new, Adds kinds s (s.lay p ls) new) :
    Lays pending (.parenOpen :: (ls ++ [.parenClose]))
      (.argumentsOpen :: (kinds ++ [.argumentsClose])) := by
  intro s p hs
  obtain ⟨q, hq⟩ := lay_append (step s (p, .parenOpen)) (p.advance Lexeme.parenOpen.chars) ls
    [.parenClose]
  obtain ⟨new, hadds⟩ := h _ (p.advance Lexeme.parenOpen.chars) (hs.step (p, .parenOpen))
  have hclosed := hadds.closeParen q
  have hlen := congrArg List.length hclosed.kinds
  simp only [List.length_append, length_kinds, List.length_cons, List.length_replicate,
    List.length_nil] at hlen
  rw [lay_cons, hq]
  refine ⟨[], hclosed, ?_, fun _ => rfl⟩
  show s.tokens.size < (Layout.closeParen _ q).tokens.size
  omega

end

/-- A statement is open with nothing in it, behind these tokens and on these frames. -/
structure Fresh (s : Layout) (before : List Token.Kind) (below : List Frame) : Prop where
  anchored : s.Anchored
  opened : ∃ f, s.frames = f :: below ∧ f.bracket = .statement ∧ f.opener + 1 = s.tokens.size
  kinds : s.kinds = before ++ [.blockOpen false]

/-- A statement is open on these frames, and these are the tokens when it ends. -/
structure Pends (s : Layout) (ended : List Token.Kind) (below : List Frame) : Prop where
  anchored : s.Anchored
  opened : ∀ p, ∃ f, (s.closeArrows p).frames = f :: below ∧ f.bracket = .statement
  kinds : ∀ p, ((s.closeArrows p).closeTop p).kinds = ended

section
variable {s : Layout} {before : List Token.Kind} {below : List Frame} {ls : List Lexeme}
  {kinds : List Token.Kind}

/-- A line with nothing in it leaves no trace. -/
theorem Fresh.pends (h : Fresh s before below) : Pends s before below := by
  obtain ⟨f, hf, hb, hlast⟩ := h.opened
  have hsame : ∀ p, s.closeArrows p = s := fun p =>
    closeArrows_of_not_arrow p (by simp [hf, hb])
  refine ⟨h.anchored, fun p => ⟨f, by rw [hsame, hf], hb⟩, fun p => ?_⟩
  have hk := h.kinds
  rw [hsame, closeTop_of_frames p hf, closeBlock, if_pos hlast]
  unfold Layout.kinds at hk ⊢
  rw [Array.toList_pop, List.map_dropLast, hk, List.dropLast_concat]

/-- A line with a tree in it. -/
theorem Fresh.line {pending : Bool} (h : Fresh s before below) (hl : Lays pending ls kinds)
    (p : Position) :
    Pends (s.lay p ls) (before ++ .blockOpen false :: (kinds ++ [.blockClose])) below := by
  obtain ⟨f, hf, hb, hlast⟩ := h.opened
  obtain ⟨new, hadds, hgrows, -⟩ := hl s p h.anchored
  have hclosed : ∀ q, _ := fun q => closeArrows_of_filled q (hadds.frames.trans (by rw [hf]))
    hadds.arrows (by simp [hb])
  refine ⟨hadds.anchored, fun q => ⟨f, (hclosed q).1, hb⟩, fun q => ?_⟩
  obtain ⟨hframes, hkinds, hsize⟩ := hclosed q
  rw [closeTop_of_filled q hframes (by omega), kinds_emit]
  have hall : (({ (s.lay p ls).closeArrows q with frames := below } : Layout)).kinds =
      s.kinds ++ kinds := by
    rw [← hadds.kinds, ← hkinds]
    rfl
  rw [hall, h.kinds]
  simp

theorem Pends.anchored_closeTop (h : Pends s before below) (p : Position) :
    ((s.closeArrows p).closeTop p).Anchored ∧ ((s.closeArrows p).closeTop p).frames = below := by
  obtain ⟨f, hf, -⟩ := h.opened p
  exact ⟨(h.anchored.closeArrows p).closeTop hf p, by rw [closeTop_of_frames p hf]⟩

theorem Pends.breakLine (h : Pends s before below) (p : Position) :
    Fresh (s.breakLine p) before below := by
  obtain ⟨f, hf, hb⟩ := h.opened p
  obtain ⟨hs, hframes⟩ := h.anchored_closeTop p
  rw [breakLine_of_statement p hf hb]
  refine ⟨hs.openWith .statement _,
    ⟨⟨.statement, ((s.closeArrows p).closeTop p).tokens.size⟩, ?_, rfl, ?_⟩, ?_⟩
  · rw [openStatement, openWith, hframes]
  · simp [openStatement, openWith]
  · rw [openStatement, kinds_openWith, h.kinds]

theorem Pends.closeBrace {g : Frame} (h : Pends s before (g :: below)) (hg : g.bracket = .brace)
    (p : Position) :
    (s.closeBrace p).Anchored ∧ (s.closeBrace p).frames = below ∧
      (s.closeBrace p).kinds = before ++ [.blockClose] := by
  obtain ⟨f, hf, hb⟩ := h.opened p
  obtain ⟨hs, hframes⟩ := h.anchored_closeTop p
  rw [closeBrace_of_braces p hf hb hg]
  refine ⟨(hs.tail hframes).emit _ p, rfl, ?_⟩
  rw [kinds_emit, ← h.kinds p]
  rfl

theorem Pends.finish (h : Pends s before below) (p : Position) :
    (s.finish p).kinds = before ++ [.blockClose] := by
  obtain ⟨f, hf, hb⟩ := h.opened p
  rw [finish_of_statement p hf hb, kinds_emit, h.kinds]

theorem fresh_braceOpen (hs : s.Anchored) (p : Position) :
    Fresh (s.step (p, .braceOpen)) (s.kinds ++ [.blockOpen true])
      (⟨.brace, s.tokens.size⟩ :: s.frames) := by
  refine ⟨hs.step _, ⟨_, rfl, rfl, ?_⟩, ?_⟩
  · simp [step, openStatement, openWith]
  · simp [step, openStatement]

/-- Lines in braces, ended by the closing one. -/
theorem Lays.braces {pending : Bool}
    (h : ∀ s p before below, Pends s before below → Pends (s.lay p ls) (before ++ kinds) below) :
    Lays pending (.braceOpen :: (ls ++ [.braceClose]))
      (.blockOpen true :: (kinds ++ [.blockClose])) := by
  intro s p hs
  obtain ⟨q, hq⟩ := lay_append (step s (p, .braceOpen)) (p.advance Lexeme.braceOpen.chars) ls
    [.braceClose]
  have hpends := h _ (p.advance Lexeme.braceOpen.chars) _ _ (fresh_braceOpen hs p).pends
  obtain ⟨hanchored, hframes, hkinds⟩ := hpends.closeBrace rfl q
  have hsize := congrArg List.length hkinds
  simp only [List.length_append, length_kinds, List.length_cons, List.length_nil] at hsize
  rw [lay_cons, hq]
  refine ⟨[], ⟨hanchored, hframes, by simp, ?_, ?_⟩, ?_, fun _ => rfl⟩
  · simpa [step] using hkinds
  · show s.tokens.size ≤ (Layout.closeBrace _ q).tokens.size
    omega
  · show s.tokens.size < (Layout.closeBrace _ q).tokens.size
    omega

theorem fresh_start : Fresh start [.blockOpen false] [] :=
  ⟨anchored_start, ⟨_, rfl, rfl, rfl⟩, rfl⟩

end

end Pseudocode.Layout

namespace Pseudocode.Node
open Layout (Lays Adds Pends Fresh)

def Piece.Laid : Piece → List Lexeme → List Token.Kind → Prop
  | node n, ls, kinds => Lays n.rightmost.isAssign ls kinds
  | items _, ls, kinds => ∀ s p, s.Anchored → ∃ new, Adds kinds s (s.lay p ls) new
  | lines _, ls, kinds => ∀ s p before below, Pends s before below →
      Pends (s.lay p ls) (before ++ kinds) below

section
variable {indent level : Int} {piece : Piece} {ls : List Lexeme} {kinds : List Token.Kind}

theorem lays_name {pending : Bool} {name : String} (h : IsName name) :
    Lays pending [.word name.toList] [.identifier name] := by
  refine Lays.token fun s p => ?_
  rw [Layout.step, h.2]

theorem step_operatorLexeme {name : String} (h : name ∈ operatorNames) (s : Layout)
    (p : Position) : s.step (p, operatorLexeme name) = s.emit (operatorKind name) p := by
  simp only [operatorNames, List.mem_cons, List.not_mem_nil, or_false] at h
  rcases h with rfl | rfl | rfl | rfl | rfl | rfl | rfl | rfl | rfl | rfl | rfl <;> rfl

/-- Every piece is laid out as the tokens that it stands for. -/
theorem Typeset.laid (h : Typeset indent level piece ls kinds) : piece.Laid ls kinds := by
  induction h with
  | number _ hk =>
      refine Lays.token fun s p => ?_
      rw [Layout.step, hk]
  | text =>
      refine Lays.token fun s p => ?_
      rw [Layout.step, String.ofList_toList]
  | var hn => exact lays_name hn
  | assign hn _ ih =>
      simp only [Piece.Laid, rightmost, isAssign] at ih ⊢
      exact (lays_name hn).append (((ih.blank ' ').arrow).blank ' ')
  | lambda _ _ ih =>
      simp only [Piece.Laid, rightmost] at ih ⊢
      have hword : Lays false [.word "LAMBDA".toList] [.lambda] := Lays.token fun _ _ => rfl
      exact hword.append (ih.blank ' ')
  | operation hn ha _ _ _ ihl ihr =>
      simp only [Piece.Laid, rightmost_operation hn, ha] at ihl ihr ⊢
      have hop : Lays false [operatorLexeme _] [operatorKind _] :=
        Lays.token (step_operatorLexeme hn)
      exact ihl.append ((hop.append (ihr.blank ' ')).blank ' ')
  | call hn _ ih =>
      simp only [Piece.Laid, rightmost_call hn.not_mem_operatorNames, isAssign] at ih ⊢
      exact (lays_name hn).append (Lays.paren ih)
  | list _ ih => exact Lays.paren ih
  | empty =>
      have hnone : ∀ (s : Layout) (p : Position) (before : List Token.Kind)
          (below : List Layout.Frame), Pends s before below →
          Pends (s.lay p []) (before ++ []) below := by
        intro s p before below h
        simpa using h
      exact Lays.braces hnone
  | @block level _ _ ls kinds _ ih =>
      have hlines : ∀ s p before below, Pends s before below →
          Pends (s.lay p (ls ++ .newline :: blanks indent level)) (before ++ kinds) below := by
        intro s p before below h
        obtain ⟨q, hq⟩ := Layout.lay_append s p ls (.newline :: blanks indent level)
        rw [hq, Layout.lay_cons, Layout.lay_blanks]
        exact ((ih s p before below h).breakLine q).pends
      simpa [Piece.Laid] using Lays.braces hlines
  | noItem => exact fun s p hs => ⟨[], .refl hs⟩
  | oneItem _ ih =>
      intro s p hs
      obtain ⟨new, hadds, -⟩ := ih s p hs
      exact ⟨new, hadds⟩
  | @moreItems _ _ _ _ ls ls' _ _ hadj _ _ ihn ihs =>
      intro s p hs
      obtain ⟨q, hq⟩ := Layout.lay_append s p ls (.ignored ',' :: .blank ' ' :: ls')
      obtain ⟨new, hadds, -, hnil⟩ := ihn s p hs
      obtain rfl := hnil hadj.1
      obtain ⟨new, hadds'⟩ := ihs _ ((q.advance [',']).advance [' '])
        (hadds.anchored.step (q, .ignored ','))
      rw [hq]
      exact ⟨new, hadds.append (Adds.skip ⟨rfl, rfl⟩ hadds')⟩
  | noLine =>
      intro s p before below h
      simpa using h
  | @moreLines level _ _ ls ls' _ _ _ _ ihn ihs =>
      intro s p before below h
      obtain ⟨q, hq⟩ := Layout.lay_append (s.breakLine p) (p.advance Lexeme.newline.chars)
        (blanks indent level) (ls ++ ls')
      obtain ⟨q', hq'⟩ := Layout.lay_append (s.breakLine p) q ls ls'
      have hline := ihs _ q' _ _ ((h.breakLine p).line ihn q)
      rw [Layout.lay_cons, Layout.step, hq, Layout.lay_blanks, hq']
      simpa using hline

/-- The trees that a program is printed as, one a line. -/
def statements : Node → List Node
  | Node.block [n] => [Node.block [n]]
  | Node.block ns => ns
  | n => [n]

/-- The lines of a program are read as the program. -/
theorem node_statements (tree : Node) :
    (Parser.Group.block false).node tree.statements = tree := by
  match tree with
  | .block [] | .block [_] | .block (_ :: _ :: _) => rfl
  | .list _ | .literal _ | .var _ _ | .assign _ _ | .call _ _ _ | .lambda _ => rfl

theorem margin_zero (indent : Int) : margin indent 0 = [] := by simp [margin]

theorem flatten_intersperse_render (ns : List Node) :
    ((ns.map (render indent 0)).intersperse ['\n']).flatten =
      (renderLines indent 0 ns).tail := by
  match ns with
  | [] => simp [renderLines]
  | [n] => simp [renderLines, margin_zero]
  | n :: m :: ns =>
      have ih := flatten_intersperse_render (m :: ns)
      rw [renderLines] at ih
      simp only [List.map_cons, List.intersperse_cons_cons, List.flatten_cons] at ih ⊢
      rw [ih]
      simp [renderLines, margin_zero]

/-- A program is printed as its lines, without the break in front of the first. -/
theorem renderProgram_eq (tree : Node) :
    tree.renderProgram indent = (renderLines indent 0 tree.statements).tail := by
  match tree with
  | .block [n] => simp [renderProgram, statements, renderLines, margin_zero]
  | .block [] | .block (_ :: _ :: _) =>
      rw [renderProgram, flatten_intersperse_render]
      · rfl
      · simp
  | .list _ | .literal _ | .var _ _ | .assign _ _ | .call _ _ _ | .lambda _ =>
      simp [renderProgram, statements, renderLines, margin_zero]

theorem Typeset.all_tail {ns : List Node} (h : Typeset indent 0 (.lines ns) ls kinds) :
    Lexeme.all (renderLines indent 0 ns).tail = ls.tail := by
  have htext := h.flatMap_chars
  have htail : ls.tail.flatMap Lexeme.chars = (renderLines indent 0 ns).tail := by
    rw [Piece.render] at htext
    rw [← htext]
    cases h <;> rfl
  rw [← htail]
  exact Lexeme.all_flatMap_chars (fun l hl => h.written l (List.mem_of_mem_tail hl))
    h.joined.tail

/-- The lines of a program, laid out. -/
theorem Typeset.pends_tail {ns : List Node} (h : Typeset indent 0 (.lines ns) ls kinds)
    (p : Position) : Pends (Layout.start.lay p ls.tail) (.blockOpen false :: kinds) [] := by
  cases h with
  | noLine => exact Layout.fresh_start.pends
  | @moreLines _ _ _ ls ls' _ _ hn hs =>
      obtain ⟨q, hq⟩ := Layout.lay_append Layout.start p (blanks indent 0) (ls ++ ls')
      obtain ⟨q', hq'⟩ := Layout.lay_append Layout.start q ls ls'
      have hlines := hs.laid _ q' _ _ (Layout.fresh_start.line hn.laid q)
      rw [List.tail_cons, hq, Layout.lay_blanks, hq']
      simpa using hlines

/-- A printed program is cut and laid out as one block of its lines. -/
theorem Typeset.kinds_program {tree : Node}
    (h : Typeset indent 0 (.lines tree.statements) ls kinds) :
    (Layout.ofSource (tree.renderProgram indent)).kinds =
      .blockOpen false :: (kinds ++ [.blockClose]) := by
  rw [renderProgram_eq, Layout.ofSource, h.all_tail]
  exact (h.pends_tail .start).finish _

end

end Pseudocode.Node
