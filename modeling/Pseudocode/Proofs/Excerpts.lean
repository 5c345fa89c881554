import Pseudocode.Proofs.Pointing

/-!
# Excerpts show the line that is pointed at

A report counts lines by line feeds, and its excerpt breaks the text also at other characters that
a text viewer may end a line at. The line that an excerpt marks is the line that is pointed at as
long as no such character stands in the text up to the end of that line; a carriage return that
ends a line does no harm. The caret stands under the column that is pointed at in any case.
-/
namespace Pseudocode

namespace Text

/-- A text in three parts: the lines before some line, the line, and the lines after it. The parts
before and after keep the line feeds. -/
structure Parted (source before line after : List Char) : Prop where
  whole : source = before ++ line ++ after
  starts : ∀ c ∈ before.getLast?, c = '\n'
  one : '\n' ∉ line
  ends : ∀ c ∈ after.head?, c = '\n'

/-- The line without the carriage return at its end, if there is one. -/
def chomp : List Char → List Char
  | [] => []
  | c :: cs => if c = '\r' ∧ cs = [] then [] else c :: chomp cs

/-- Excerpts break at line feeds only, and at carriage returns that end a line. -/
def Unbroken (cs : List Char) : Prop :=
  ∀ front c back, cs = front ++ c :: back → isLineBreak c = true →
    c = '\n' ∨ c = '\r' ∧ ∀ d ∈ back.head?, d = '\n'

theorem chomp_cons {c : Char} (h : c ≠ '\r') (cs : List Char) :
    chomp (c :: cs) = c :: chomp cs := by
  rw [chomp, if_neg fun hc => h hc.1]

theorem head?_dropWhile_feed {c : Char} {cs : List Char}
    (h : c ∈ (cs.dropWhile (· != '\n')).head?) : c = '\n' := by
  have hnot := List.head?_dropWhile_not (· != '\n') cs
  rw [h] at hnot
  simpa using hnot

/-- Every place of a text lies in a line of it. -/
theorem exists_parted (front back : List Char) :
    ∃ before left right after, Parted (front ++ back) before (left ++ right) after ∧
      Position.after front = ⟨before.count '\n' + 1, left.length + 1⟩ := by
  let before := (front.reverse.dropWhile (· != '\n')).reverse
  let left := (front.reverse.takeWhile (· != '\n')).reverse
  let right := back.takeWhile (· != '\n')
  have hfront : before ++ left = front := by
    rw [← List.reverse_append, List.takeWhile_append_dropWhile, List.reverse_reverse]
  have hleft : '\n' ∉ left := fun h => by
    simpa using List.mem_takeWhile_imp (List.mem_reverse.1 h)
  have hright : '\n' ∉ right := fun h => by simpa using List.mem_takeWhile_imp h
  refine ⟨before, left, right, back.dropWhile (· != '\n'), ⟨?_, fun c hc => ?_, ?_, ?_⟩, ?_⟩
  · rw [← List.append_assoc, hfront, List.append_assoc, List.takeWhile_append_dropWhile]
  · rw [List.getLast?_reverse] at hc
    exact head?_dropWhile_feed hc
  · simp [hleft, hright]
  · exact fun c hc => head?_dropWhile_feed hc
  · have hcount : front.count '\n' = before.count '\n' := by
      rw [← hfront, List.count_append, List.count_eq_zero_of_not_mem hleft, Nat.add_zero]
    simp [Position.after, hcount, left, Nat.add_comm]

theorem Unbroken.left {cs ds : List Char} (h : Unbroken (cs ++ ds)) : Unbroken cs := by
  intro front c back hcs hc
  refine (h front c (back ++ ds) (by simp [hcs]) hc).imp_right (And.imp_right fun hback d hd => ?_)
  apply hback d
  rw [List.head?_append, hd]
  rfl

theorem Unbroken.right {cs ds : List Char} (h : Unbroken (cs ++ ds)) : Unbroken ds :=
  fun front c back hds hc => h (cs ++ front) c back (by rw [hds, List.append_assoc]) hc

theorem Unbroken.tail {c : Char} {cs : List Char} (h : Unbroken (c :: cs)) : Unbroken cs :=
  fun front d back hcs hd => h (c :: front) d back (by rw [hcs, List.cons_append]) hd

/-- A carriage return that is not at the end stands before a line feed. -/
theorem Unbroken.cons_return {cs : List Char} (h : Unbroken ('\r' :: cs)) :
    ∀ d ∈ cs.head?, d = '\n' := by
  rcases h [] '\r' cs rfl (by decide) with hc | ⟨-, hback⟩
  · exact absurd hc (by decide)
  · exact hback

theorem Unbroken.cons_cases {c : Char} {cs : List Char} (h : Unbroken (c :: cs)) :
    c = '\n' ∨ c = '\r' ∨ isLineBreak c = false := by
  cases hc : isLineBreak c with
  | false => exact .inr (.inr rfl)
  | true => exact (h [] c cs rfl hc).imp_right fun hr => .inl hr.1

theorem splitLinesFrom_feed (line cs : List Char) :
    splitLinesFrom line ('\n' :: cs) = line.reverse :: splitLinesFrom [] cs := by
  rw [splitLinesFrom]
  · exact if_pos (by decide)
  · simp

theorem splitLinesFrom_cons {c : Char} (h : isLineBreak c = false) (line cs : List Char) :
    splitLinesFrom line (c :: cs) = splitLinesFrom (c :: line) cs := by
  rw [splitLinesFrom]
  · rw [h]
    rfl
  · rintro cs' rfl
    exact absurd h (by decide)

theorem splitLinesFrom_return (line cs : List Char) :
    splitLinesFrom line ('\r' :: '\n' :: cs) = splitLinesFrom line ('\n' :: cs) := by
  rw [splitLinesFrom_feed, splitLinesFrom]

/-- The lines that an unbroken text begins with are counted by its line feeds. -/
theorem exists_splitLinesFrom_append (before cs line : List Char) (hline : before = [] → line = [])
    (hends : ∀ c ∈ before.getLast?, c = '\n') (h : Unbroken before) :
    ∃ ls, ls.length = before.count '\n' ∧
      splitLinesFrom line (before ++ cs) = ls ++ splitLinesFrom [] cs := by
  induction before generalizing line with
  | nil =>
      rw [hline rfl]
      exact ⟨[], rfl, rfl⟩
  | cons c before ih =>
      have hrest := h.tail
      have hlast : ∀ d ∈ before.getLast?, d = '\n' := fun d hd =>
        hends d (by rw [List.getLast?_cons, hd]; rfl)
      have hmore : c ≠ '\n' → before ≠ [] := by
        rintro hc rfl
        exact hc (hends c rfl)
      rcases h.cons_cases with rfl | rfl | hc
      · obtain ⟨ls, hlength, hls⟩ := ih [] (fun _ => rfl) hlast hrest
        refine ⟨line.reverse :: ls, by simp [hlength], ?_⟩
        rw [List.cons_append, splitLinesFrom_feed, hls, List.cons_append]
      · obtain ⟨d, rest, rfl⟩ := List.exists_cons_of_ne_nil (hmore (by decide))
        obtain rfl : d = '\n' := h.cons_return d rfl
        obtain ⟨ls, hlength, hls⟩ := ih line nofun hlast hrest
        refine ⟨ls, by simpa using hlength, ?_⟩
        rwa [List.cons_append, List.cons_append, splitLinesFrom_return, ← List.cons_append]
      · have hfeed : c ≠ '\n' := by
          rintro rfl
          exact absurd hc (by decide)
        obtain ⟨ls, hlength, hls⟩ :=
          ih (c :: line) (fun hnil => absurd hnil (hmore hfeed)) hlast hrest
        refine ⟨ls, by rw [hlength, List.count_cons_of_ne hfeed], ?_⟩
        rwa [List.cons_append, splitLinesFrom_cons hc]

/-- The first line of a text, unless there is no text. -/
theorem head?_splitLinesFrom (line after begun : List Char) (hline : '\n' ∉ line)
    (hafter : ∀ c ∈ after.head?, c = '\n') (h : Unbroken line) :
    (splitLinesFrom begun (line ++ after)).head? =
      if begun = [] ∧ line ++ after = [] then none else some (begun.reverse ++ chomp line) := by
  induction line generalizing begun with
  | nil =>
      cases after with
      | nil => cases begun <;> simp [splitLinesFrom, chomp]
      | cons d after =>
          obtain rfl : d = '\n' := hafter d rfl
          simp [splitLinesFrom_feed, chomp]
  | cons c line ih =>
      have hrest := h.tail
      obtain ⟨hfeed, hlater⟩ := not_or.1 (mt List.mem_cons.2 hline)
      rw [if_neg (by simp)]
      rcases h.cons_cases with rfl | rfl | hc
      · exact absurd rfl hfeed
      · have hnil : line = [] := by
          cases line with
          | nil => rfl
          | cons d line =>
              obtain rfl : d = '\n' := h.cons_return d rfl
              exact absurd List.mem_cons_self hlater
        subst hnil
        cases after with
        | nil => simp [splitLinesFrom, chomp, isLineBreak]
        | cons d after =>
            obtain rfl : d = '\n' := hafter d rfl
            rw [List.cons_append, List.nil_append, splitLinesFrom_return, splitLinesFrom_feed]
            simp [chomp]
      · have hreturn : c ≠ '\r' := by
          rintro rfl
          exact absurd hc (by decide)
        rw [List.cons_append, splitLinesFrom_cons hc, ih (c :: begun) hlater hrest,
          if_neg (by simp), chomp_cons hreturn]
        simp

/-- The line of an unbroken text, among the lines that an excerpt is made of. There is none when
nothing stands there. -/
theorem getElem?_splitLines {source : String} {before line after : List Char}
    (h : Parted source.toList before line after) (hunbroken : Unbroken (before ++ line)) :
    (splitLines source)[before.count '\n']? =
      if line ++ after = [] then none else some (String.ofList (chomp line)) := by
  obtain ⟨ls, hlength, hls⟩ := exists_splitLinesFrom_append before (line ++ after) []
    (fun _ => rfl) h.starts hunbroken.left
  have hhead := head?_splitLinesFrom line after [] h.one h.ends hunbroken.right
  rw [splitLines, h.whole, List.append_assoc, hls, List.getElem?_map, ← hlength,
    List.getElem?_append_right (Nat.le_refl _), Nat.sub_self, ← List.head?_eq_getElem?, hhead]
  by_cases hnil : line ++ after = []
  · simp [hnil]
  · simp [hnil]

end Text

namespace Excerpt

theorem rightAligned_self (n : Nat) : rightAligned (toString n).length n = toString n := by
  simp [rightAligned]

/-- The row with the marker, and the caret below the column. At most the line before goes before
them. -/
theorem exists_rows {lines : List String} {number : Nat} {shown : String}
    (h : lines[number]? = some shown) (column : Int) :
    ∃ previous, previous.length ≤ 1 ∧ (∀ row ∈ previous, row.toList.head? = some ' ') ∧
      rows lines (number + 1) (some column) = previous ++
        [row ">" (toString (number + 1)) shown,
          row " " (String.ofList (List.replicate (toString (number + 1)).length ' '))
            (String.ofList (List.replicate (column - 1).toNat ' ') ++ "^")] := by
  simp only [rows, Nat.add_sub_cancel, h, rightAligned_self]
  refine ⟨_, ?_, ?_, rfl⟩
  · split
    · exact Nat.zero_le 1
    · exact Option.length_toList_le
  · intro r hr
    split at hr
    · cases hr
    · obtain ⟨line, -, rfl⟩ := Option.map_eq_some_iff.1 (Option.mem_toList.1 hr)
      simp [row]

/-- What an excerpt shows: a row that is marked, with the number of the line, and a caret in the
row below it, behind as many characters. At most one row goes before them, and it is not marked. -/
def Shows (text : String) (number column : Nat) (shown : String) : Prop :=
  ∃ previous head gutter, text = String.intercalate "\n" (previous ++
      [head ++ shown, gutter ++ String.ofList (List.replicate column ' ') ++ "^"]) ∧
    head = "> " ++ toString number ++ " | " ∧ gutter.length = head.length ∧
    previous.length ≤ 1 ∧ ∀ row ∈ previous, row.toList.head? = some ' '

theorem Shows.ne_empty {text shown : String} {number column : Nat}
    (h : Shows text number column shown) : text ≠ "" := by
  obtain ⟨previous, head, gutter, rfl, -⟩ := h
  obtain ⟨first, second, rest, hrows⟩ : ∃ first second rest, previous ++ [head ++ shown,
      gutter ++ String.ofList (List.replicate column ' ') ++ "^"] = first :: second :: rest := by
    cases previous with
    | nil => exact ⟨_, _, _, rfl⟩
    | cons first previous => cases previous <;> exact ⟨_, _, _, rfl⟩
  intro hempty
  have hlength := congrArg String.length hempty
  simp [hrows, String.intercalate_cons_cons] at hlength

end Excerpt

theorem shows_excerpt {source : String} {number : Nat} {shown : String}
    (h : (Text.splitLines source)[number]? = some shown) (column : Nat) :
    Excerpt.Shows (excerpt source (number + 1 : Nat) (some (column + 1 : Nat))) (number + 1) column
      shown := by
  obtain ⟨previous, hlength, hhead, hrows⟩ := Excerpt.exists_rows h (column + 1 : Nat)
  refine ⟨previous, _,
    "  " ++ String.ofList (List.replicate (toString (number + 1)).length ' ') ++ " | ",
    ?_, rfl, ?_, hlength, hhead⟩
  · rw [excerpt, Int.toNat_natCast, hrows]
    simp [Excerpt.row, String.append_assoc]
  · simp only [String.length_append, String.length_ofList, List.length_replicate]
    rfl

theorem excerpt_eq_empty {source : String} {number : Nat}
    (h : (Text.splitLines source)[number]? = none) (column : Option Int) :
    excerpt source (number + 1 : Nat) column = "" := by
  rw [excerpt, Int.toNat_natCast]
  simp [Excerpt.rows, h]

theorem Report.exists_excerpt_ofSourceError {source : String} {e : SourceError} {p : Position}
    (h : (ofSourceError source e).location = some (.ofPosition p)) :
    ∃ start, (ofSourceError source e).message =
      start ++ excerpt source p.line (some p.column) := by
  unfold ofSourceError at h ⊢
  split at h
  · cases h
  · rename_i line column hlocation
    obtain ⟨rfl, rfl⟩ : line = p.line ∧ column = some (p.column : Int) := by
      simpa [Location.ofPosition] using h
    dsimp only
    split
    · rename_i hempty
      rw [String.isEmpty_iff.1 hempty]
      exact ⟨_, rfl⟩
    · exact ⟨_, String.append_assoc.symm⟩

theorem Report.exists_excerpt_ofFault {functionText : Function → Except Fault String}
    {source : String} {m : Machine σ} {fault : Fault} {report : Report} {p : Position}
    (h : ofFault functionText source m fault = .ok report)
    (hp : report.location = some (.ofPosition p)) :
    ∃ start rest, report.message = start ++ excerpt source p.line (some p.column) ++ rest := by
  obtain ⟨-, hlocation, line, -, hidle, hcalls⟩ := of_ofFault h
  obtain ⟨l, hfocus, hpointed⟩ := Option.bind_eq_some_iff.1 (hlocation.symm.trans hp)
  obtain rfl : l = .ofPosition p := by
    unfold Location.pointed? at hpointed
    split at hpointed
    · exact Option.some.inj hpointed
    · cases hpointed
  rw [hfocus] at hidle hcalls
  by_cases hnone : m.calls = []
  · exact ⟨_, "", (hidle hnone).trans (String.append_empty).symm⟩
  · obtain ⟨trace, -, hmessage⟩ := hcalls hnone
    exact ⟨_, "\n" ++ trace, hmessage.trans String.append_assoc⟩

/-- A failed run that points anywhere has the excerpt for that place in its report. -/
theorem exists_excerpt_of_run {host : Host σ} {given : Bindings} {source : String} {state : σ}
    {limit : Nat} {report : Report} {p : Position}
    (h : (run host given source state limit).result = .error (.report report))
    (hp : report.location = some (.ofPosition p)) :
    ∃ start rest, report.message = start ++ excerpt source p.line (some p.column) ++ rest := by
  obtain ⟨e, -, rfl⟩ | ⟨tree, fault, last, -, -, hreport, -⟩ := run_report_cases h
  · obtain ⟨start, hmessage⟩ := Report.exists_excerpt_ofSourceError hp
    exact ⟨start, "", by rw [hmessage, String.append_empty]⟩
  · exact Report.exists_excerpt_ofFault hreport hp

/-- A failed run that points anywhere points into a line of its text, and its report has an excerpt
for that place. If the excerpt is not empty, it has a row that is marked, with the number of the
line, and a caret under the column. The row shows the line of that number as excerpts break the
text. It is the line that is pointed at, but for a carriage return at its end, if up to the end of
that line excerpts break where lines end; then the excerpt is empty only if nothing stands in the
line or after it. -/
theorem excerpt_shows_line {σ : Type} (host : Host σ) (given : Bindings) (source : String)
    (state : σ) (limit : Nat) (report : Report) (l : Location)
    (hhost : host.KeepsTo (Node.PlacedIn source.toList))
    (h : (run host given source state limit).result = .error (.report report))
    (hl : report.location = some l) :
    ∃ (before left right after : List Char) (text : String),
      Text.Parted source.toList before (left ++ right) after ∧
      l = ⟨some (before.count '\n' + 1 : Nat), some (left.length + 1 : Nat)⟩ ∧
      text = excerpt source (before.count '\n' + 1 : Nat) (some (left.length + 1 : Nat)) ∧
      (∃ start rest, report.message = start ++ text ++ rest) ∧
      (text = "" ∨ ∃ shown, Excerpt.Shows text (before.count '\n' + 1) left.length shown ∧
        (Text.splitLines source)[before.count '\n']? = some shown ∧
        (Text.Unbroken (before ++ (left ++ right)) →
          shown = String.ofList (Text.chomp (left ++ right)))) ∧
      (Text.Unbroken (before ++ (left ++ right)) → (text = "" ↔ left ++ right ++ after = [])) := by
  obtain ⟨front, back, htext, rfl⟩ := inText_of_report hhost h hl
  obtain ⟨before, left, right, after, hparted, hplace⟩ := Text.exists_parted front back
  rw [← htext] at hparted
  have hmessage := exists_excerpt_of_run h hl
  rw [hplace] at hmessage ⊢
  refine ⟨before, left, right, after, _, hparted, rfl, rfl, hmessage, ?_, fun hunbroken => ?_⟩
  · cases hshown : (Text.splitLines source)[before.count '\n']? with
    | none => exact .inl (excerpt_eq_empty hshown _)
    | some shown =>
        refine .inr ⟨shown, shows_excerpt hshown left.length, rfl, fun hunbroken => ?_⟩
        rw [Text.getElem?_splitLines hparted hunbroken] at hshown
        split at hshown
        · cases hshown
        · exact (Option.some.inj hshown).symm
  · have hlines := Text.getElem?_splitLines hparted hunbroken
    split at hlines
    · rename_i hnil
      exact ⟨fun _ => hnil, fun _ => excerpt_eq_empty hlines _⟩
    · rename_i hsome
      have hne := (shows_excerpt hlines left.length).ne_empty
      exact ⟨fun hempty => absurd hempty hne, fun hnil => absurd hnil hsome⟩

/-- An unknown name in the tenth line, which ends in a carriage return and a line feed. -/
theorem excerpt_shows_line_sample :
    let source := "\n\n\n\n\n\n\n\n\nx <- nope\r\n1"
    let host : Host Unit := Host.none
    ∃ report, (run host [] source ()).result = .error (.report report) ∧
      report.location = some ⟨some 10, some 6⟩ ∧
      host.KeepsTo (Node.PlacedIn source.toList) ∧
      ∃ (before left right after : List Char) (text : String),
        Text.Parted source.toList before (left ++ right) after ∧
        (⟨some 10, some 6⟩ : Location) =
          ⟨some (before.count '\n' + 1 : Nat), some (left.length + 1 : Nat)⟩ ∧
        text = excerpt source (before.count '\n' + 1 : Nat) (some (left.length + 1 : Nat)) ∧
        (∃ start rest, report.message = start ++ text ++ rest) ∧
        (text = "" ∨ ∃ shown, Excerpt.Shows text (before.count '\n' + 1) left.length shown ∧
          (Text.splitLines source)[before.count '\n']? = some shown ∧
          (Text.Unbroken (before ++ (left ++ right)) →
            shown = String.ofList (Text.chomp (left ++ right)))) ∧
        (Text.Unbroken (before ++ (left ++ right)) →
          (text = "" ↔ left ++ right ++ after = [])) := by
  intro source host
  have hlocation : (run host [] source ()).report?.map Report.location =
      some (some ⟨some 10, some 6⟩) := by decide +kernel
  have hhost : host.KeepsTo (Node.PlacedIn source.toList) := fun _ _ _ _ => trivial
  obtain ⟨report, hreport, hl⟩ := Option.map_eq_some_iff.1 hlocation
  have hresult := Outcome.report?_eq_some_iff.1 hreport
  exact ⟨report, hresult, hl, hhost,
    excerpt_shows_line host [] source () nestingLimit report _ hhost hresult hl⟩

/-- A form feed inside a text counts as the end of a line in the excerpt only, which shows the rest
of the first line as the second. -/
theorem form_feed_moves_excerpt :
    (run (Host.none : Host Unit) [] "\"a\x0cb\"\nnope" ()).report?.map
        (fun report => (report.location, report.message)) =
      some (some ⟨some 2, some 1⟩, "UnknownIdentifier: nope\n(line 2, col 1)\n" ++
        "  1 | \"a\n> 2 | b\"\n    | ^") := by
  decide +kernel

end Pseudocode
