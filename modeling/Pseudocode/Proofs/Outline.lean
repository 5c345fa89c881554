import Pseudocode.Node.Printer
import Pseudocode.Proofs.Balance

/-!
# The outline of a token stream

A stream that comes from a text is more regular than the grammar asks: a line is opened
directly inside braces or the program only, a right-hand side directly behind its arrow
only, and behind a right-hand side the group around it ends. The outline is the machine
that checks this while it keeps the open brackets. The program counts as braces.
-/
namespace Pseudocode

def IsName (name : String) : Prop :=
  Lexeme.IsWord name.toList ∧ Token.Kind.ofWord name.toList = .identifier name

/-- A token of a text that opens and closes nothing and is no arrow. -/
def Token.Kind.Plain : Token.Kind → Prop
  | .less | .lambda | .number _ => True
  | .operation name => name ∈ Node.operatorNames
  | .text content => '"' ∉ content.toList
  | .identifier name => IsName name
  | _ => False

theorem Token.Kind.plain_ofWord {word : List Char} (h : Lexeme.IsWord word) :
    (Token.Kind.ofWord word).Plain := by
  have hname : Token.Kind.ofWord word = .identifier (String.ofList word) →
      (Token.Kind.identifier (String.ofList word)).Plain := by
    intro hi
    constructor
    · rwa [String.toList_ofList]
    · rw [String.toList_ofList, hi]
  have hwords : ∀ name ∈ Token.operatorWords, name ∈ Node.operatorNames := by decide
  cases hk : Token.Kind.ofWord word with
  | identifier name =>
      have hn : name = String.ofList word := by
        simp only [Token.Kind.ofWord] at hk
        grind
      subst hn
      exact hname hk
  | operation name =>
      apply hwords
      simp only [Token.Kind.ofWord] at hk
      grind
  | lambda => trivial
  | number value => trivial
  | _ =>
      simp only [Token.Kind.ofWord] at hk
      grind

/-- How a stream may go on inside the innermost bracket. -/
inductive Pace where
  | free
  /-- Behind an arrow, where the right-hand side is opened. -/
  | pointed
  /-- Behind a right-hand side. -/
  | ended
  deriving DecidableEq, Repr

/-- The open brackets, innermost first, and how the stream may go on. -/
structure Outline where
  brackets : List Layout.Bracket
  pace : Pace
  deriving DecidableEq, Repr

namespace Outline
open Layout (Bracket)

inductive Takes : Outline → Token.Kind → Outline → Prop
  | program : Takes ⟨[], .free⟩ (.blockOpen false) ⟨[.brace], .free⟩
  | statement {bs : List Bracket} :
      Takes ⟨.brace :: bs, .free⟩ (.blockOpen false) ⟨.statement :: .brace :: bs, .free⟩
  | rightSide {b : Bracket} {bs : List Bracket} : b ≠ .brace →
      Takes ⟨b :: bs, .pointed⟩ (.blockOpen false) ⟨.arrow :: b :: bs, .free⟩
  | braces {b : Bracket} {bs : List Bracket} : b ≠ .brace →
      Takes ⟨b :: bs, .free⟩ (.blockOpen true) ⟨.brace :: b :: bs, .free⟩
  | paren {b : Bracket} {bs : List Bracket} : b ≠ .brace →
      Takes ⟨b :: bs, .free⟩ .argumentsOpen ⟨.paren :: b :: bs, .free⟩
  | plain {b : Bracket} {bs : List Bracket} {kind : Token.Kind} : b ≠ .brace → kind.Plain →
      Takes ⟨b :: bs, .free⟩ kind ⟨b :: bs, .free⟩
  | arrow {b : Bracket} {bs : List Bracket} : b ≠ .brace →
      Takes ⟨b :: bs, .free⟩ .arrow ⟨b :: bs, .pointed⟩
  | endStatement {bs : List Bracket} {pace : Pace} :
      Takes ⟨.statement :: bs, pace⟩ .blockClose ⟨bs, .free⟩
  | endRightSide {bs : List Bracket} {pace : Pace} :
      Takes ⟨.arrow :: bs, pace⟩ .blockClose ⟨bs, .ended⟩
  | endBraces {bs : List Bracket} : Takes ⟨.brace :: bs, .free⟩ .blockClose ⟨bs, .free⟩
  | endParen {bs : List Bracket} {pace : Pace} :
      Takes ⟨.paren :: bs, pace⟩ .argumentsClose ⟨bs, .free⟩

/-- What some tokens make of an outline, one after the other. -/
def Runs (before : Outline) : List Token → Outline → Prop
  | [], after => before = after
  | token :: tokens, after => ∃ next, Takes before token.kind next ∧ Runs next tokens after

theorem runs_append {before after : Outline} {front back : List Token} :
    Runs before (front ++ back) after ↔
      ∃ next, Runs before front next ∧ Runs next back after := by
  induction front generalizing before with
  | nil => simp [Runs]
  | cons token tokens ih =>
      simp only [List.cons_append, Runs, ih]
      constructor
      · rintro ⟨first, ht, next, hf, hb⟩
        exact ⟨next, ⟨first, ht, hf⟩, hb⟩
      · rintro ⟨next, ⟨first, ht, hf⟩, hb⟩
        exact ⟨first, ht, next, hf, hb⟩

theorem Runs.snoc {before middle after : Outline} {tokens : List Token} {token : Token}
    (h : Runs before tokens middle) (ht : Takes middle token.kind after) :
    Runs before (tokens ++ [token]) after :=
  runs_append.2 ⟨middle, h, after, ht, rfl⟩

theorem Runs.of_snoc {before after : Outline} {tokens : List Token} {token : Token}
    (h : Runs before (tokens ++ [token]) after) :
    ∃ middle, Runs before tokens middle ∧ Takes middle token.kind after := by
  obtain ⟨middle, hr, next, ht, rfl⟩ := runs_append.1 h
  exact ⟨middle, hr, ht⟩

end Outline

namespace Layout
open Outline

def outline (s : Layout) (pace : Pace) : Outline := ⟨s.frames.map Frame.bracket ++ [.brace], pace⟩

/-- The stream so far opens the frames and goes on at the given pace. -/
def Outlined (s : Layout) (pace : Pace) : Prop :=
  Runs ⟨[], .free⟩ s.tokens.toList (s.outline pace)

section
variable {s : Layout} {f g : Frame} {rest : List Frame} {pace : Pace}

theorem Stacked.head_ne_brace {frames : List Frame} (h : Stacked frames) :
    ∃ b bs, frames.map Frame.bracket ++ [Bracket.brace] = b :: bs ∧ b ≠ .brace := by
  cases h with
  | bottom hf | paren hf _ | arrow hf _ | braces hf _ _ => exact ⟨_, _, rfl, by simp [hf]⟩

theorem Outlined.emit (h : Outlined s pace) {kind : Token.Kind} {after : Pace}
    (ht : Takes (s.outline pace) kind (s.outline after)) (p : Position) :
    Outlined (s.emit kind p) after := by
  rw [Outlined, Layout.emit, Array.toList_push]
  exact h.snoc ht

theorem Outlined.plain (h : Outlined s .free) (hst : Stacked s.frames) (kind : Token.Kind)
    (hk : kind.Plain) (p : Position) : Outlined (s.emit kind p) .free := by
  obtain ⟨b, bs, heq, hb⟩ := hst.head_ne_brace
  refine h.emit ?_ p
  rw [outline, heq]
  exact .plain hb hk

theorem Outlined.openWith (h : Outlined s pace) {bracket : Bracket}
    (ht : Takes (s.outline pace) bracket.opener ⟨bracket :: (s.outline pace).brackets, .free⟩)
    (p : Position) : Outlined (s.openWith bracket bracket.opener p) .free := by
  rw [Outlined, Layout.openWith, Array.toList_push]
  exact h.snoc ht

/-- The frames without the innermost, at a given pace. -/
theorem Outlined.leave (h : Outlined s pace) {kind : Token.Kind}
    {after : Pace} (ht : Takes (s.outline pace) kind ⟨rest.map Frame.bracket ++ [.brace], after⟩)
    (p : Position) : Outlined (({ s with frames := rest } : Layout).emit kind p) after := by
  rw [Outlined, Layout.emit, Array.toList_push]
  exact h.snoc ht

/-- An implicit block that ends leaves the outline as it would be without it, or with it. -/
theorem Outlined.closeTop (h : Outlined s pace) (hs : s.Anchored) (hf : s.frames = f :: rest)
    (hi : f.bracket.Implicit) (p : Position) :
    ∃ after, Outlined (s.closeTop p) after ∧ (f.bracket = .statement → after = .free) := by
  rw [closeTop_of_frames p hf]
  unfold Outlined outline at h ⊢
  simp only [hf, List.map_cons, List.cons_append] at h
  unfold closeBlock
  split
  · rename_i hlast
    -- The last token is the opener, and before it the outline had the frame not open.
    obtain ⟨token, htoken, hk⟩ := hs.toList_of_last (hf ▸ List.mem_cons_self) hlast
    rw [htoken] at h
    obtain ⟨middle, hr, htakes⟩ := h.of_snoc
    cases hb : f.bracket with
    | statement =>
        rw [hk, hb] at htakes
        generalize hbs : rest.map Frame.bracket ++ [Bracket.brace] = bs at *
        cases htakes with
        | statement => exact ⟨.free, hr, fun _ => rfl⟩
        | plain _ hplain => exact hplain.elim
    | arrow =>
        rw [hk, hb] at htakes
        generalize hbs : rest.map Frame.bracket ++ [Bracket.brace] = bs at *
        cases htakes with
        | rightSide hne => exact ⟨.pointed, hr, fun hc => nomatch hc⟩
        | plain _ hplain => exact hplain.elim
    | brace => rw [hb] at hi; exact hi.elim
    | paren => rw [hb] at hi; exact hi.elim
  · rw [Array.toList_push]
    cases hb : f.bracket with
    | statement =>
        rw [hb] at h
        exact ⟨.free, h.snoc .endStatement, fun _ => rfl⟩
    | arrow =>
        rw [hb] at h
        exact ⟨.ended, h.snoc .endRightSide, fun hc => nomatch hc⟩
    | brace => rw [hb] at hi; exact hi.elim
    | paren => rw [hb] at hi; exact hi.elim

theorem Outlined.closeArrows (h : Outlined s pace) (hs : s.Anchored) (p : Position) :
    ∃ after, Outlined (s.closeArrows p) after := by
  refine hs.closeArrows_induct (P := fun s => ∃ after, Outlined s after) p ?_ ⟨pace, h⟩
  rintro s f rest hs hf ha ⟨after, h⟩
  obtain ⟨next, hnext, -⟩ := h.closeTop hs hf (by rw [ha]; trivial) p
  exact ⟨next, hnext⟩

/-- The statement that is open innermost ends, with the right-hand sides in it. -/
theorem Outlined.closeLine (h : Outlined s pace) (hs : s.Anchored) (p : Position)
    (hd : (s.closeArrows p).frames = f :: rest) (hf : f.bracket = .statement) :
    Outlined ((s.closeArrows p).closeTop p) .free := by
  obtain ⟨middle, hm⟩ := h.closeArrows hs p
  obtain ⟨after, ha, hfree⟩ := hm.closeTop (hs.closeArrows p) hd (by rw [hf]; trivial) p
  rwa [hfree hf] at ha

theorem Outlined.openStatement (h : Outlined s .free) (p : Position)
    (hfloor : ∀ g ∈ s.frames.head?, g.bracket = .brace) :
    Outlined (s.openStatement p) .free := by
  refine h.openWith ?_ p
  rw [outline]
  cases hframes : s.frames with
  | nil => exact .statement
  | cons g rest =>
      rw [List.map_cons, hfloor g (by rw [hframes]; rfl)]
      exact .statement

theorem Lone.plain {l : Lexeme} {kind : Token.Kind} (h : Lone l kind) (hl : l.Proper) :
    kind.Plain := by
  cases h with
  | less => trivial
  | operator c =>
      have hnames : (Lexeme.operatorChars.all fun c =>
          String.singleton c ∈ Node.operatorNames) = true := by decide +kernel
      rw [Token.Kind.Plain]
      simpa using List.all_eq_true.1 hnames c hl
  | quoted content =>
      rw [Token.Kind.Plain, String.toList_ofList]
      exact hl
  | word content => exact Token.Kind.plain_ofWord hl

/-- A lexeme keeps the outline if it closes no bracket but the one that is open. -/
theorem Outlined.taken (h : Outlined s .free) (hs : s.Anchored) (hst : Stacked s.frames)
    {p : Position} {l : Lexeme} {next : Layout} (hl : l.Proper) (ht : Taken s p l next)
    (hfind : s.Finds l) : Outlined next .free := by
  obtain ⟨b, bs, heq, hb⟩ := hst.head_ne_brace
  cases ht with
  | blank | unclosed | ignored | joined => exact h
  | token hlone => exact h.plain hst _ (hlone.plain hl) p
  | arrow =>
      have hpoint : Outlined (s.emit .arrow p) .pointed := by
        refine h.emit ?_ p
        rw [outline, outline, heq]
        exact .arrow hb
      refine hpoint.openWith ?_ p
      rw [outline, show (s.emit .arrow p).frames = s.frames from rfl, heq]
      exact .rightSide hb
  | parenOpen =>
      refine h.openWith ?_ p
      rw [outline, heq]
      exact .paren hb
  | braceOpen =>
      have hbrace : Outlined (s.openWith .brace Bracket.brace.opener p) .free := by
        refine h.openWith ?_ p
        rw [outline, heq]
        exact .braces hb
      exact hbrace.openStatement p fun g hg => by cases hg; rfl
  | broken hd hf hfloor =>
      refine (h.closeLine hs p hd hf).openStatement _ ?_
      rwa [frames_closeTop p hd]
  | parenClose hd hf =>
      obtain ⟨pace, hclosed⟩ := h.closeArrows hs p
      refine hclosed.leave ?_ p
      rw [outline, hd, List.map_cons, hf]
      exact .endParen
  | braceClose hd hf hg =>
      refine (h.closeLine hs p hd hf).leave ?_ p
      rw [outline, frames_closeTop p hd, List.map_cons, hg]
      exact .endBraces
  | stray hstray => exact absurd hfind hstray.not_finds

theorem outlined_start : Outlined start .free :=
  ⟨_, .program, _, .statement, rfl⟩

/-- A text without a mismatch so far is in live standing. -/
theorem Standing.explicit_of_scan {word : List Mark} (h : Standing word s)
    {reached : List Pair} (hw : Mark.scan [] word = some reached) : s.explicit = reached := by
  cases h with
  | live _ hword => exact Option.some.inj (hword.symm.trans hw)
  | spent _ hword | doomed _ _ hword => rw [hword] at hw; cases hw

/-- In a text without a mismatch a closer finds its bracket open. -/
theorem Standing.finds {word more : List Mark} (h : Standing word s) {l : Lexeme}
    {reached : List Pair}
    (hscan : Mark.scan [] ((word ++ l.mark?.toList) ++ more) = some reached) : s.Finds l := by
  intro pair hm
  obtain ⟨next, hnext⟩ := Mark.scan_prefix (List.prefix_append _ _) hscan
  obtain ⟨before, hbefore⟩ := Mark.scan_prefix (List.prefix_append _ _) hnext
  rw [hm, Option.toList_some, Mark.scan_snoc hbefore] at hnext
  rw [h.explicit_of_scan hbefore]
  cases before with
  | nil => cases hnext
  | cons q qs =>
      by_cases hq : pair = q
      · rw [hq]
        rfl
      · simp [Mark.take, Ne.symm hq] at hnext

theorem Outlined.foldl (h : Outlined s .free) {word : List Mark} (hw : Standing word s)
    (hs : s.Anchored) (hst : Stacked s.frames) (p : Position) {ls : List Lexeme}
    (hl : ∀ l ∈ ls, l.Proper) {reached : List Pair}
    (hscan : Mark.scan [] (word ++ ls.filterMap Lexeme.mark?) = some reached) :
    Outlined ((Lexeme.place p ls).foldl Layout.step s) .free := by
  induction ls generalizing word s p with
  | nil => exact h
  | cons l ls ih =>
      rw [append_marks_cons] at hscan
      have hnext := h.taken hs hst (hl l List.mem_cons_self) (step_taken hst p l) (hw.finds hscan)
      exact ih hnext (hw.step hs hst p l) (hs.step (p, l)) (hst.step (p, l)) _
        (fun l' hl' => hl l' (List.mem_cons_of_mem l hl')) hscan

/-- The stream of a text with well-nested brackets has an outline from its first token to its
last. -/
theorem runs_ofSource {cs : List Char} (h : Mark.scan [] (skeleton cs) = some []) :
    Runs ⟨[], .free⟩ (ofSource cs).tokens.toList ⟨[], .free⟩ := by
  have hmarks := Lexeme.filterMap_mark?_all cs
  obtain ⟨hstanding, hs, hst⟩ := standing_foldl standing_start anchored_start stacked_start
    .start (Lexeme.all cs)
  have ho := outlined_start.foldl standing_start anchored_start stacked_start .start
    (fun l hl => Lexeme.proper_of_mem_all hl) (by rw [List.nil_append, hmarks, h])
  rw [List.nil_append, hmarks] at hstanding
  have he := hstanding.explicit_of_scan h
  unfold ofSource
  generalize (Lexeme.place .start (Lexeme.all cs)).foldl Layout.step start = s at *
  generalize Position.start.advance cs = p
  obtain ⟨f, hd, hf⟩ := bottom_of_explicit hst he p
  have hclosed := ho.closeLine hs p hd hf
  rw [Outlined, outline, closeTop_of_frames p hd] at hclosed
  rw [finish_of_statement p hd hf, closeTop_of_frames p hd, Layout.emit, Array.toList_push]
  exact hclosed.snoc .endBraces

/-- Only texts with well-nested brackets are accepted. -/
theorem scan_skeleton_of_accepted {cs : List Char} {root : Node}
    (h : Parser.run (.ready []) (ofSource cs).tokens.toList = .ok (.complete root)) :
    Mark.scan [] (skeleton cs) = some [] := by
  by_contra hscan
  obtain ⟨hstanding, -, hst⟩ := standing_foldl standing_start anchored_start stacked_start
    .start (Lexeme.all cs)
  rw [List.nil_append, Lexeme.filterMap_mark?_all] at hstanding
  exact hstanding.rejected (foldl_step_moves start _) hst hscan _ root h

end

end Layout

end Pseudocode
