import Pseudocode.Proofs.PrintedLayout

/-!
# Texts inside of texts

A text can stand behind another one or inside of braces. Where the seam is a line break
or a bracket, no lexeme runs across it. The layout of a balanced text does the same there
as it does for the text on its own: it adds tokens of the same kinds, and its frames lie
on those that were there before, with their openers further back by a fixed number.
-/
namespace Pseudocode

namespace Lexeme

/-- Without a partner a quote takes the rest of the text. -/
theorem cutQuoted_of_not_mem {cs : List Char} (h : '"' ∉ cs) :
    cutQuoted cs = (unclosed cs, []) := by
  have hnone : cs.dropWhile (· != '"') = [] := by
    rw [List.dropWhile_eq_nil_iff]
    intro d hd
    simp only [bne_iff_ne, ne_eq]
    rintro rfl
    exact h hd
  rw [cutQuoted, hnone]

/-- No lexeme with both its ends goes on into a text that begins like this: the first character is
in no word, and makes no arrow with what stands before it. -/
def Apart (rest : List Char) : Prop := ∀ d ∈ rest.head?, d ∈ signs ∧ d ≠ '-'

theorem apart_cons {c : Char} {cs : List Char} : Apart (c :: cs) ↔ c ∈ signs ∧ c ≠ '-' := by
  simp [Apart]

section
variable {rest : List Char} (hr : Apart rest)
include hr

theorem cutPlain_append (c : Char) (cs : List Char) :
    cutPlain c (cs ++ rest) = ((cutPlain c cs).1, (cutPlain c cs).2 ++ rest) := by
  have hstop : ∀ numeric, rest.takeWhile (continuesWord numeric) = [] ∧
      rest.dropWhile (continuesWord numeric) = rest := by
    intro numeric
    cases rest with
    | nil => exact ⟨rfl, rfl⟩
    | cons d ds =>
        have hd := continuesWord_of_mem_signs (hr d rfl).1 numeric
        simp [hd]
  have hword : cutWord c (cs ++ rest) = ((cutWord c cs).1, (cutWord c cs).2 ++ rest) := by
    induction cs with
    | nil => simp [cutWord, hstop]
    | cons d ds ih =>
        simp only [cutWord, Prod.mk.injEq, word.injEq, List.cons.injEq, true_and] at ih ⊢
        by_cases hd : continuesWord (Text.isDigit c) d = true
        · simp [hd, ih]
        · simp [hd]
  unfold cutPlain
  rw [hword]
  repeat' split
  all_goals rfl

/-- A lexeme that ends before the seam is cut the same without what follows. -/
theorem cut_append (c : Char) (cs : List Char)
    (hu : ∀ content, (cut c cs).1 ≠ unclosed content) :
    cut c (cs ++ rest) = ((cut c cs).1, (cut c cs).2 ++ rest) := by
  by_cases hc : c ∈ breaks
  · simp only [breaks, List.mem_cons, List.not_mem_nil, or_false] at hc
    rcases hc with rfl | rfl | rfl | rfl | rfl | rfl | rfl
    · rfl
    · cases cs with
      | nil =>
          have hminus : rest.head? ≠ some '-' := fun hd => (hr _ hd).2 rfl
          exact cut_less hminus
      | cons d ds =>
          by_cases hd : d = '-'
          · subst hd
            rfl
          · rw [cut_less (by simpa using hd), cut_less (by simpa using hd)]
    · rfl
    · rfl
    · rfl
    · rfl
    · have hcut : ∀ ds, cut '"' ds = cutQuoted ds := fun ds => rfl
      rw [hcut] at hu ⊢
      rw [hcut]
      by_cases hq : '"' ∈ cs
      · obtain ⟨content, after, rfl, hcontent⟩ := List.eq_append_cons_of_mem hq
        rw [List.append_assoc, List.cons_append, cutQuoted_append hcontent,
          cutQuoted_append hcontent]
      · rw [cutQuoted_of_not_mem hq] at hu
        exact absurd rfl (hu cs)
  · rw [cut_eq_cutPlain hc, cut_eq_cutPlain hc]
    exact cutPlain_append hr c cs

theorem all_append (cs : List Char) (hu : ∀ l ∈ all cs, ∀ content, l ≠ unclosed content) :
    all (cs ++ rest) = all cs ++ all rest := by
  fun_induction all cs with
  | case1 => rfl
  | case2 c cs ih =>
      obtain ⟨hfirst, hothers⟩ := List.forall_mem_cons.1 hu
      rw [List.cons_append, all_cons, cut_append hr c cs hfirst, ih hothers, List.cons_append]

end

end Lexeme

namespace Layout

/-- The frame when `count` more tokens stand before its opener. -/
def Frame.shift (count : Nat) (f : Frame) : Frame := ⟨f.bracket, f.opener + count⟩

@[simp] theorem Frame.bracket_shift (count : Nat) (f : Frame) :
    (f.shift count).bracket = f.bracket := rfl

/-- `t` is where `s` is, with tokens of the kinds `front` behind the program's opener and with
the frames `base` in place of `own` at the bottom. -/
structure Embedded (front : List Token.Kind) (own base : List Frame) (s t : Layout) : Prop where
  kinds : t.kinds = .blockOpen false :: (front ++ s.kinds.tail)
  frames : ∃ upper, s.frames = upper ++ own ∧
    t.frames = upper.map (Frame.shift front.length) ++ base

section
variable {front : List Token.Kind} {own base : List Frame} {s t : Layout} {f g : Frame}
  {rest rest' : List Frame}

theorem Embedded.size_eq (h : Embedded front own base s t) (hs : s.Anchored) :
    t.tokens.size = s.tokens.size + front.length := by
  have hsize := hs.started
  rw [← length_kinds, h.kinds]
  simp only [List.length_cons, List.length_append, List.length_tail, length_kinds]
  omega

theorem Embedded.emit (h : Embedded front own base s t) (hs : s.Anchored) (kind : Token.Kind)
    (p q : Position) : Embedded front own base (s.emit kind p) (t.emit kind q) where
  kinds := by
    have hne : s.kinds ≠ [] := by
      rw [← List.length_pos_iff, length_kinds]
      exact hs.started
    rw [kinds_emit, kinds_emit, h.kinds, List.tail_append_of_ne_nil hne]
    simp
  frames := h.frames

theorem Embedded.openWith (h : Embedded front own base s t) (hs : s.Anchored) (bracket : Bracket)
    (kind : Token.Kind) (p q : Position) :
    Embedded front own base (s.openWith bracket kind p) (t.openWith bracket kind q) where
  kinds := (h.emit hs kind p q).kinds
  frames := by
    obtain ⟨upper, hframes, hframes'⟩ := h.frames
    refine ⟨⟨bracket, s.tokens.size⟩ :: upper, ?_, ?_⟩
    · simp only [Layout.openWith, hframes, List.cons_append]
    · simp only [Layout.openWith, hframes', List.map_cons, List.cons_append, Frame.shift,
        h.size_eq hs]

/-- The innermost frame of both. -/
theorem Embedded.frames_cons (h : Embedded front own base s t)
    (hf : s.frames = f :: (rest ++ own)) :
    t.frames = f.shift front.length :: (rest.map (Frame.shift front.length) ++ base) := by
  obtain ⟨upper, hframes, hframes'⟩ := h.frames
  have hupper : upper = f :: rest := List.append_cancel_right (hframes.symm.trans hf)
  rw [hframes', hupper]
  rfl

theorem Embedded.leave (h : Embedded front own base s t) (rest : List Frame) :
    Embedded front own base { s with frames := rest ++ own }
      { t with frames := rest.map (Frame.shift front.length) ++ base } :=
  ⟨h.kinds, rest, rfl, rfl⟩

/-- The end of the innermost frames does the same to both streams. -/
theorem Embedded.kinds_closeTop (h : Embedded front own base s t) (hs : s.Anchored)
    (hf : s.frames = f :: rest) (hg : t.frames = g :: rest')
    (hfg : g.opener = f.opener + front.length) (p q : Position) :
    (t.closeTop q).kinds = .blockOpen false :: (front ++ (s.closeTop p).kinds.tail) := by
  have hsize := h.size_eq hs
  rw [closeTop_of_frames p hf, closeTop_of_frames q hg, closeBlock, closeBlock]
  by_cases hlast : f.opener + 1 = s.tokens.size
  · have hopener := (hs.pointed f (hf ▸ List.mem_cons_self)).1
    have hne : s.kinds.tail ≠ [] := by
      rw [← List.length_pos_iff, List.length_tail, length_kinds]
      omega
    rw [if_pos hlast, if_pos (by omega)]
    have hkinds := congrArg List.dropLast h.kinds
    rw [List.dropLast_cons_of_ne_nil (by simp [hne]), List.dropLast_append_of_ne_nil hne,
      ← List.tail_dropLast] at hkinds
    simpa [Layout.kinds] using hkinds
  · rw [if_neg hlast, if_neg (by omega)]
    exact (h.emit hs .blockClose p q).kinds

theorem Embedded.closeTop (h : Embedded front own base s t) (hs : s.Anchored)
    (hf : s.frames = f :: (rest ++ own)) (p q : Position) :
    Embedded front own base (s.closeTop p) (t.closeTop q) where
  kinds := h.kinds_closeTop hs hf (h.frames_cons hf) rfl p q
  frames := ⟨rest, frames_closeTop p hf, frames_closeTop q (h.frames_cons hf)⟩

/-- Right-hand sides end alike, down to a frame above those at the bottom. -/
theorem Embedded.closeArrows (h : Embedded front own base s t) (hs : s.Anchored) {p : Position}
    (hd : (s.closeArrows p).frames = f :: (rest ++ own)) (q : Position) :
    Embedded front own base (s.closeArrows p) (t.closeArrows q) := by
  obtain ⟨upper, hframes, -⟩ := h.frames
  induction upper generalizing s t with
  | nil =>
      have hle := (List.dropWhile_sublist (l := own) (·.bracket = .arrow)).length_le
      rw [frames_closeArrows, hframes, List.nil_append] at hd
      rw [hd] at hle
      simp only [List.length_cons, List.length_append] at hle
      omega
  | cons g upper ih =>
      by_cases ha : g.bracket = .arrow
      · rw [closeArrows_of_arrow p hframes ha] at hd ⊢
        rw [closeArrows_of_arrow q (h.frames_cons hframes) ha]
        exact ih (h.closeTop hs hframes p q) (hs.closeTop hframes p) hd (frames_closeTop p hframes)
      · rw [closeArrows_of_not_arrow p (by simpa [hframes] using ha),
          closeArrows_of_not_arrow q (by simpa [h.frames_cons hframes] using ha)]
        exact h

/-- Right-hand sides end alike down to the bottom, and there they may go on differently. -/
theorem Embedded.closeArrows_bottom {b : Frame} (h : Embedded front [b] base s t)
    (hs : s.Anchored) (hb : b.bracket ≠ .arrow) {p : Position}
    (hd : (s.closeArrows p).frames = [f]) (q : Position) :
    (s.closeArrows p).frames = [b] ∧ ∃ t', Embedded front [b] base (s.closeArrows p) t' ∧
      t'.frames = base ∧ t.closeArrows q = t'.closeArrows q := by
  obtain ⟨upper, hframes, hframes'⟩ := h.frames
  induction upper generalizing s t with
  | nil =>
      rw [closeArrows_of_not_arrow p (by simpa [hframes] using hb)]
      exact ⟨hframes, t, h, hframes', rfl⟩
  | cons g upper ih =>
      by_cases ha : g.bracket = .arrow
      · rw [closeArrows_of_arrow p hframes ha] at hd ⊢
        rw [closeArrows_of_arrow q (h.frames_cons hframes) ha]
        exact ih (h.closeTop hs hframes p q) (hs.closeTop hframes p) hd (frames_closeTop p hframes)
          (frames_closeTop q (h.frames_cons hframes))
      · rw [closeArrows_of_not_arrow p (by simpa [hframes] using ha), hframes] at hd
        simp at hd

/-- While a bracket of the text is open, right-hand sides do not end at the bottom. -/
theorem Embedded.reaches_of_explicit (h : Embedded front own base s t)
    (hown : ∀ f ∈ own, f.bracket = .statement) (he : s.explicit ≠ []) (p : Position) :
    ∃ f rest, (s.closeArrows p).frames = f :: (rest ++ own) := by
  obtain ⟨upper, hframes, -⟩ := h.frames
  cases hupper : upper.dropWhile (·.bracket = .arrow) with
  | nil =>
      refine absurd ?_ he
      rw [explicit, hframes, List.filterMap_eq_nil_iff]
      intro f hf
      rcases List.mem_append.1 hf with hf | hf
      · have ha := List.dropWhile_eq_nil_iff.1 hupper f hf
        simp only [decide_eq_true_eq] at ha
        simp [Frame.explicit?, ha]
      · simp [Frame.explicit?, hown f hf]
  | cons f rest =>
      refine ⟨f, rest, ?_⟩
      rw [frames_closeArrows, hframes, List.dropWhile_append, hupper]
      rfl

/-- A brace is no statement, so it lies above the bottom with the statement that it holds. -/
theorem Embedded.reaches_brace (h : Embedded front own base s t)
    (hown : ∀ f ∈ own, f.bracket = .statement) {p : Position} {f g : Frame} {below : List Frame}
    (hd : (s.closeArrows p).frames = f :: g :: below) (hf : f.bracket = .statement)
    (hg : g.bracket = .brace) : ∃ rest, below = rest ++ own := by
  obtain ⟨f, rest, hreach⟩ := h.reaches_of_explicit hown
    (by simp [explicit_of_frames hd, Frame.explicit?, hf, hg]) p
  obtain ⟨-, hrest⟩ := List.cons.inj (hd.symm.trans hreach)
  cases rest with
  | nil =>
      obtain rfl : g :: below = own := hrest
      rw [hown g List.mem_cons_self] at hg
      cases hg
  | cons _ rest => exact ⟨rest, (List.cons.inj hrest).2⟩

/-- A lexeme does the same to both if it finds its bracket, and if a line that it breaks is above
the bottom. -/
theorem Embedded.taken (h : Embedded front own base s t) (hs : s.Anchored)
    (hown : ∀ f ∈ own, f.bracket = .statement) {p : Position} {l : Lexeme} {next : Layout}
    (ht : Taken s p l next) (hfind : s.Finds l)
    (hn : l = .newline → ∃ f rest, (s.closeArrows p).frames = f :: (rest ++ own))
    (q : Position) : Embedded front own base next (t.step (q, l)) := by
  have hanchored := hs.closeArrows p
  cases ht with
  | blank | unclosed => exact h
  | ignored c => exact ⟨h.kinds, h.frames⟩
  | token hl => cases hl <;> exact h.emit hs _ p q
  | arrow => exact (h.emit hs .arrow p q).openWith (hs.emit .arrow p) .arrow _ p q
  | parenOpen => exact h.openWith hs .paren _ p q
  | braceOpen =>
      exact (h.openWith hs .brace _ p q).openWith (hs.openWith .brace p) .statement _ p q
  | joined hd hf =>
      obtain ⟨f, rest, hreach⟩ := hn rfl
      obtain ⟨rfl, rfl⟩ := List.cons.inj (hd.symm.trans hreach)
      rw [Layout.step, breakLine_of_paren q ((h.closeArrows hs hd q).frames_cons hd) hf]
      exact h
  | broken hd hf _ =>
      obtain ⟨f, rest, hreach⟩ := hn rfl
      obtain ⟨rfl, rfl⟩ := List.cons.inj (hd.symm.trans hreach)
      have harrows := h.closeArrows hs hd q
      rw [Layout.step, breakLine_of_statement q (harrows.frames_cons hd) hf]
      exact (harrows.closeTop hanchored hd p q).openWith (hanchored.closeTop hd p) .statement _ _ _
  | parenClose hd hf =>
      obtain ⟨f, rest, hreach⟩ := h.reaches_of_explicit hown
        (by simp [explicit_of_frames hd, Frame.explicit?, hf]) p
      obtain ⟨rfl, rfl⟩ := List.cons.inj (hd.symm.trans hreach)
      have harrows := h.closeArrows hs hd q
      rw [Layout.step, closeParen_of_paren q (harrows.frames_cons hd) hf]
      exact (harrows.leave rest).emit (hanchored.tail hd) .argumentsClose p q
  | @braceClose f g _ hd hf hg =>
      obtain ⟨rest, rfl⟩ := h.reaches_brace hown hd hf hg
      have hreach : (s.closeArrows p).frames = f :: (g :: rest ++ own) := hd
      have harrows := h.closeArrows hs hreach q
      have hframes := harrows.frames_cons hreach
      rw [List.map_cons, List.cons_append] at hframes
      rw [Layout.step, closeBrace_of_braces q hframes hf hg]
      exact ((harrows.closeTop hanchored hreach p q).leave rest).emit
        ((hanchored.closeTop hd p).tail (frames_closeTop p hd)) .blockClose p q
  | stray hl => exact absurd hfind hl.not_finds

/-- Line feeds stand inside of brackets, unless lines may end at the bottom. -/
theorem Embedded.lay (h : Embedded front own base s t) (hown : ∀ f ∈ own, f.bracket = .statement)
    {word : List Mark} (hw : Standing word s) (hs : s.Anchored) (hst : Stacked s.frames)
    {ls : List Lexeme} {reached : List Pair}
    (hscan : Mark.scan [] (word ++ ls.filterMap Lexeme.mark?) = some reached)
    (hn : own = [] ∨ ∀ front back, ls = front ++ .newline :: back →
      Mark.scan [] (word ++ front.filterMap Lexeme.mark?) ≠ some []) (p q : Position) :
    Embedded front own base (s.lay p ls) (t.lay q ls) := by
  induction ls generalizing word s t p q with
  | nil => exact h
  | cons l ls ih =>
      have hreach : l = .newline → ∃ f rest, (s.closeArrows p).frames = f :: (rest ++ own) := by
        rintro rfl
        rcases hn with rfl | hn
        · obtain ⟨frames, hd, hinner⟩ := hst.innermost_closeArrows p
          cases hinner <;> exact ⟨_, _, hd.trans (by rw [List.append_nil])⟩
        · obtain ⟨before, hbefore⟩ := Mark.scan_prefix (List.prefix_append _ _) hscan
          have hopen := hn [] ls rfl
          rw [List.filterMap_nil, List.append_nil, hbefore, ← hw.explicit_of_scan hbefore] at hopen
          exact h.reaches_of_explicit hown (fun he => hopen (congrArg some he)) p
      rw [append_marks_cons] at hscan
      rw [lay_cons, lay_cons]
      have hnext := h.taken hs hown (step_taken hst p l) (hw.finds hscan) hreach q
      refine ih hnext (hw.step hs hst p l) (hs.step (p, l)) (hst.step (p, l)) hscan
        (hn.imp_right fun hn front back hls => ?_) _ _
      rw [← append_marks_cons]
      exact hn (l :: front) back (by rw [hls, List.cons_append])

/-- The line that is open when no bracket of the text is. -/
theorem Embedded.closeLine (h : Embedded front [] base s t) (hs : s.Anchored)
    (hst : Stacked s.frames) (he : s.explicit = []) (p q : Position) :
    Embedded front [] base ((s.closeArrows p).closeTop p) ((t.closeArrows q).closeTop q) := by
  obtain ⟨f, hd, hf⟩ := bottom_of_explicit hst he p
  have hbottom : (s.closeArrows p).frames = f :: ([] ++ []) := hd
  exact (h.closeArrows hs hbottom q).closeTop (hs.closeArrows p) hbottom p q

end

/-- The end of a text when the one line that is open holds something. -/
theorem kinds_finish_of_filled {s : Layout} {opener : Nat}
    (hf : s.frames = [⟨.statement, opener⟩]) (hfill : opener + 1 < s.tokens.size)
    (p : Position) : (s.finish p).kinds = s.kinds ++ [.blockClose, .blockClose] := by
  have harrows : s.closeArrows p = s := closeArrows_of_not_arrow p (by simp [hf])
  rw [finish_of_statement p (by rw [harrows, hf]) rfl, harrows, closeTop_of_filled p hf hfill,
    kinds_emit, kinds_emit, List.append_assoc]
  rfl

/-- The layout of a text at its end, before the implicit blocks end. -/
def laid (cs : List Char) : Layout := start.lay .start (Lexeme.all cs)

theorem ofSource_eq (cs : List Char) :
    ofSource cs = (laid cs).finish (Position.start.advance cs) := rfl

theorem anchored_laid (cs : List Char) : (laid cs).Anchored :=
  (foldl_step_moves start _).anchored anchored_start

theorem stacked_laid (cs : List Char) : Stacked (laid cs).frames :=
  (standing_foldl standing_start anchored_start stacked_start .start (Lexeme.all cs)).2.2

theorem laid_append {cs more : List Char} {ls : List Lexeme}
    (h : Lexeme.all (cs ++ more) = Lexeme.all cs ++ ls) :
    laid (cs ++ more) = (laid cs).lay (Position.start.advance cs) ls := by
  rw [laid, h, lay_append_at, Lexeme.flatMap_chars_all]
  rfl

/-- The tokens of the lines of a text, by their kinds. -/
def lineKinds (cs : List Char) : List Token.Kind :=
  (((laid cs).closeArrows (Position.start.advance cs)).closeTop
    (Position.start.advance cs)).kinds.tail

section
variable {cs : List Char} (hcs : Mark.scan [] (skeleton cs) = some [])
include hcs

theorem explicit_laid : (laid cs).explicit = [] := by
  obtain ⟨hstanding, -, -⟩ := standing_foldl standing_start anchored_start stacked_start
    .start (Lexeme.all cs)
  rw [List.nil_append, Lexeme.filterMap_mark?_all] at hstanding
  exact hstanding.explicit_of_scan hcs

/-- At the end of a balanced text one statement is open. -/
theorem bottom_laid (p : Position) :
    ∃ f, ((laid cs).closeArrows p).frames = [f] ∧ f.bracket = .statement :=
  bottom_of_explicit (stacked_laid cs) (explicit_laid hcs) p

theorem kinds_closeLine :
    (((laid cs).closeArrows (Position.start.advance cs)).closeTop
      (Position.start.advance cs)).kinds = .blockOpen false :: lineKinds cs := by
  obtain ⟨f, hd, hf⟩ := bottom_laid hcs (Position.start.advance cs)
  have hmoves : Moves start (((laid cs).closeArrows (Position.start.advance cs)).closeTop
      (Position.start.advance cs)) :=
    ((foldl_step_moves start _).trans (closeArrows_moves _ _)).tail
      (.ended _ hd (by rw [hf]; trivial))
  have hlist := toList_of_moves hmoves
  rw [lineKinds, kinds, hlist]
  rfl

theorem kinds_ofSource :
    (ofSource cs).kinds = .blockOpen false :: (lineKinds cs ++ [.blockClose]) := by
  obtain ⟨f, hd, hf⟩ := bottom_laid hcs (Position.start.advance cs)
  rw [ofSource_eq, finish_of_statement _ hd hf, kinds_emit, kinds_closeLine hcs]
  rfl

/-- A balanced text on other frames, when it has been taken in and its last line has ended. -/
theorem Embedded.whole {front : List Token.Kind} {base : List Frame} {t : Layout}
    (h : Embedded front [] base start t) (p q : Position) :
    let last := ((t.lay p (Lexeme.all cs)).closeArrows q).closeTop q
    last.kinds = .blockOpen false :: (front ++ lineKinds cs) ∧
      ∃ f, ((t.lay p (Lexeme.all cs)).closeArrows q).frames = f :: base ∧
        f.bracket = .statement := by
  have hscan : Mark.scan [] ([] ++ (Lexeme.all cs).filterMap Lexeme.mark?) = some [] := by
    rw [List.nil_append, Lexeme.filterMap_mark?_all, hcs]
  have hlaid : Embedded front [] base (laid cs) (t.lay p (Lexeme.all cs)) :=
    h.lay nofun standing_start anchored_start stacked_start hscan (.inl rfl) .start p
  have hs := anchored_laid cs
  have hst := stacked_laid cs
  obtain ⟨f, hd, hf⟩ := bottom_laid hcs (Position.start.advance cs)
  have hbottom : ((laid cs).closeArrows (Position.start.advance cs)).frames = f :: ([] ++ []) := hd
  have harrows := (hlaid.closeArrows hs hbottom q).frames_cons hbottom
  have hlast := hlaid.closeLine hs hst (explicit_laid hcs) (Position.start.advance cs) q
  exact ⟨hlast.kinds, _, harrows, hf⟩

end

section
variable {cs : List Char} (hu : ∀ l ∈ Lexeme.all cs, ∀ content, l ≠ .unclosed content)
include hu

theorem all_line (more : List Char) :
    Lexeme.all (cs ++ '\n' :: more) = Lexeme.all cs ++ .newline :: Lexeme.all more := by
  rw [Lexeme.all_append (Lexeme.apart_cons.2 (by decide)) cs hu, Lexeme.all_cons]
  rfl

theorem laid_line (more : List Char) : laid (cs ++ '\n' :: more) =
    ((laid cs).breakLine (Position.start.advance cs)).lay
      ((Position.start.advance cs).advance ['\n']) (Lexeme.all more) :=
  laid_append (all_line hu more)

theorem all_braces :
    Lexeme.all ('\x7b' :: (cs ++ ['\x7d'])) = .braceOpen :: (Lexeme.all cs ++ [.braceClose]) := by
  have hopen : Lexeme.cut '\x7b' (cs ++ ['\x7d']) = (.braceOpen, cs ++ ['\x7d']) := rfl
  have hclose : Lexeme.cut '\x7d' [] = (.braceClose, []) := rfl
  rw [Lexeme.all_cons, hopen, Lexeme.all_append (Lexeme.apart_cons.2 (by decide)) cs hu,
    Lexeme.all_cons, hclose, Lexeme.all_nil]

variable (hcs : Mark.scan [] (skeleton cs) = some [])
include hcs

/-- The lines of two texts, one below the other. -/
theorem kinds_ofSource_append {more : List Char}
    (hmore : Mark.scan [] (skeleton more) = some []) :
    (ofSource (cs ++ '\n' :: more)).kinds =
      .blockOpen false :: (lineKinds cs ++ lineKinds more ++ [.blockClose]) := by
  obtain ⟨f, hd, hf⟩ := bottom_laid hcs (Position.start.advance cs)
  -- The line break leaves the layout as it was in the beginning, behind the lines so far.
  have hbegin : Embedded (lineKinds cs) [] [] start
      ((laid cs).breakLine (Position.start.advance cs)) := by
    rw [breakLine_of_statement _ hd hf]
    refine ⟨?_, start.frames, rfl, ?_⟩
    · rw [openStatement, kinds_openWith, kinds_closeLine hcs]
      rfl
    · have hsize := congrArg List.length (kinds_closeLine hcs)
      rw [length_kinds, List.length_cons] at hsize
      rw [openStatement, openWith, frames_closeTop _ hd, hsize, Nat.add_comm]
      rfl
  obtain ⟨hkinds, g, hd', hg⟩ := hbegin.whole hmore
    ((Position.start.advance cs).advance ['\n']) (Position.start.advance (cs ++ '\n' :: more))
  rw [ofSource_eq, laid_line hu, finish_of_statement _ hd' hg, kinds_emit, hkinds]
  rfl

/-- The lines of a text in braces. -/
theorem kinds_ofSource_braces :
    (ofSource ('\x7b' :: (cs ++ ['\x7d']))).kinds =
      .blockOpen false :: .blockOpen false :: .blockOpen true ::
        (lineKinds cs ++ [.blockClose, .blockClose, .blockClose]) := by
  have hbegin : Embedded [.blockOpen false, .blockOpen true] [] [⟨.brace, 2⟩, ⟨.statement, 1⟩]
      start (start.step (.start, .braceOpen)) := ⟨rfl, start.frames, rfl, rfl⟩
  generalize hq : (Position.start.advance ['\x7b']).advance cs = q
  obtain ⟨hkinds, f, hd, hf⟩ := hbegin.whole hcs (Position.start.advance ['\x7b']) q
  generalize ht : (start.step (.start, .braceOpen)).lay (Position.start.advance ['\x7b'])
    (Lexeme.all cs) = t at hkinds hd
  have hlaid : laid ('\x7b' :: (cs ++ ['\x7d'])) = t.closeBrace q := by
    rw [laid, all_braces hu, ← List.cons_append, lay_append_at, List.flatMap_cons,
      Lexeme.flatMap_chars_all, Position.advance_append, lay_cons, ← ht, ← hq]
    rfl
  -- The closing brace leaves the line that the braces stand on, and the end of the text ends it.
  rw [ofSource_eq, hlaid, closeBrace_of_braces q hd hf rfl]
  have hclosed : (({ (t.closeArrows q).closeTop q with frames := [⟨.statement, 1⟩] } :
      Layout).emit .blockClose q).kinds = .blockOpen false ::
        ([.blockOpen false, .blockOpen true] ++ lineKinds cs ++ [.blockClose]) := by
    rw [kinds_emit]
    exact congrArg (· ++ [Token.Kind.blockClose]) hkinds
  rw [kinds_finish_of_filled rfl (by rw [← length_kinds, hclosed]; simp), hclosed]
  simp

end

end Layout

end Pseudocode
