import Pseudocode.Console
import Pseudocode.Proofs.Displayable
import Pseudocode.Proofs.HardErrors
import Pseudocode.Proofs.Parallel

/-!
# The command line goes on

A program that is handed to the command line is run, or printed as a tree. Either way it
is dealt with: what fails is of the kinds of error that are expected there, and is
complained about. The value that a program ends in is data, since the terminal offers no
functions, so it can be shown in every format unless it holds a lambda; and then it is
refused before anything of it is shown.

Line after line, the command line goes on with the next one, whatever came of the line
before. A program may read lines as well, but it never adds any, so the lines that are
left bound the turns that follow.
-/
namespace Pseudocode

namespace Value

mutual

/-- Of data, only lambdas have no displayed text. -/
theorem ensureDisplayable_of_isData : (v : Value) → v.isData →
    v.ensureDisplayable =
      if v.bodies.isEmpty then .ok () else .error (.mismatch (.notDisplayable .lambda))
  | literal _, _ => rfl
  | lambda _, _ => rfl
  | list items, h => ensureAllDisplayable_of_areData items h

theorem ensureAllDisplayable_of_areData : (vs : List Value) → areData vs →
    ensureAllDisplayable vs =
      if (bodiesAll vs).isEmpty then .ok () else .error (.mismatch (.notDisplayable .lambda))
  | [], _ => rfl
  | v :: vs, h => by
      obtain ⟨hv, hvs⟩ := Bool.and_eq_true_iff.1 h
      rw [ensureAllDisplayable, ensureDisplayable_of_isData v hv,
        ensureAllDisplayable_of_areData vs hvs, bodiesAll]
      cases v.bodies <;> rfl

end

/-- Data without lambdas can be exported. -/
theorem toDatum_of_isData (v : Value) (h : v.isData) (hb : v.bodies = []) :
    ∃ d, v.toDatum = .ok d := by
  rw [exists_toDatum_iff, ← ensureDisplayable_eq_ok_iff, ensureDisplayable_of_isData v h, hb]
  rfl

end Value

namespace Console

section
variable (yaml : Datum → String) (format : Option Format)

theorem valueText_of_ne {v : Value} (h : v.isData) (hne : v ≠ .list []) :
    valueText yaml format v = (do
      v.ensureDisplayable
      match format with
      | some f => return some (chomp (f.write yaml true (← v.toDatum)))
      | none => return some (← v.print 2 0)) := by
  unfold valueText
  split
  · exact absurd rfl hne
  · cases h
  · rfl

/-- Data without lambdas is shown in every format. -/
theorem valueText_of_isData {v : Value} (h : v.isData) (hb : v.bodies = []) (hne : v ≠ .list []) :
    ∃ text, valueText yaml format v = .ok (some text) := by
  rw [valueText_of_ne yaml format h hne, Value.ensureDisplayable_of_isData v h, hb]
  cases format with
  | none =>
      obtain ⟨text, htext⟩ := v.exists_print 2 0 h
      exact ⟨text, by rw [htext]; rfl⟩
  | some f =>
      obtain ⟨d, hd⟩ := v.toDatum_of_isData h hb
      exact ⟨chomp (f.write yaml true d), by rw [hd]; rfl⟩

/-- A lambda is refused, wherever it is held. -/
theorem valueText_of_bodies {v : Value} (h : v.isData) (hb : v.bodies ≠ []) :
    valueText yaml format v = .error (.mismatch (.notDisplayable .lambda)) := by
  have hne : v ≠ .list [] := by
    rintro rfl
    exact hb rfl
  rw [valueText_of_ne yaml format h hne, Value.ensureDisplayable_of_isData v h,
    if_neg (fun he => hb (List.isEmpty_iff.1 he))]
  rfl

end

namespace Terminal

/-- All the input that there will be is there. -/
def Supplied (t : Terminal) : Prop := t.ended = true ∧ t.waiting = false

/-- What a terminal may become: lines are taken, none are added, and input that was complete stays
complete. -/
structure Follows (t after : Terminal) : Prop where
  pending : after.pending <:+ t.pending
  supplied : t.Supplied → after.Supplied

theorem Follows.refl (t : Terminal) : t.Follows t := ⟨List.suffix_refl _, id⟩

theorem Follows.trans {t middle after : Terminal} (h : t.Follows middle)
    (h' : middle.Follows after) : t.Follows after :=
  ⟨h'.pending.trans h.pending, h'.supplied ∘ h.supplied⟩

theorem pending_write (t : Terminal) (w : Written) : (t.write w).pending = t.pending := by
  unfold write
  split <;> rfl

theorem follows_write (t : Terminal) (w : Written) : t.Follows (t.write w) := by
  unfold write
  split
  · exact .refl t
  · exact ⟨List.suffix_refl _, id⟩

theorem written_complain {t : Terminal} (h : t.Supplied) (text : String) :
    (t.complain text).written = t.written.push (.error (text ++ "\n")) := by
  rw [complain, write, h.2]
  rfl

/-- The line that is read next. -/
theorem ask_of_pending {t : Terminal} {line : String} {rest : List String}
    (h : t.pending = line :: rest) (prompt : String) :
    t.ask prompt = (line, { t.write (.output prompt) with pending := rest }) := by
  simp only [ask, pending_write, h]

theorem follows_ask (t : Terminal) (prompt : String) : t.Follows (t.ask prompt).2 := by
  have hwrite := t.follows_write (.output prompt)
  cases hp : t.pending with
  | cons line rest =>
      rw [ask_of_pending hp]
      exact ⟨hp ▸ List.suffix_cons line rest, hwrite.supplied⟩
  | nil =>
      simp only [ask, pending_write, hp]
      split
      · exact hwrite
      · rename_i hended
        exact ⟨List.nil_suffix, fun hs => absurd (hwrite.supplied hs).1 hended⟩

end Terminal

open Terminal

theorem onlyDeclines_host : host.OnlyDeclines := by
  intro channel hchannel
  cases hchannel
  exact ⟨nofun, nofun⟩

/-- A run takes lines from the terminal and adds none. -/
theorem follows_run (source : String) (t : Terminal) (limit : Nat) :
    t.Follows (run host [] source t limit).machine.host := by
  let S : Terminal → Terminal → Prop := fun a b => a = b ∧ t.Follows a
  have hhost : host.Alike id S host := {
    functions := rfl
    channel := by
      refine .some ⟨?_, ?_⟩
      · rintro text a b ⟨rfl, ha⟩
        exact ⟨rfl, rfl, ha.trans (a.follows_write _)⟩
      · rintro prompt a b ⟨rfl, ha⟩
        exact ⟨rfl, rfl, ha.trans (a.follows_ask _)⟩
    call := fun name args args' a b _ hab => .fail .invalidArguments hab
    functionText := rfl }
  cases hp : parse source limit with
  | error e =>
      rw [run_eq, hp]
      exact .refl t
  | ok tree =>
      have halike := alike_run hhost Node.keepsSorts_id [] hp hp rfl ⟨rfl, .refl t⟩
      exact halike.machine.host.2

/-- A limit on nesting that admits all tokens of a text. -/
def admits (limit : Nat) (source : String) : Bool :=
  (tokenize source).toOption.all (·.tokens.size ≤ limit)

theorem size_le_of_admits {limit : Nat} {source : String} (h : admits limit source)
    {layout : Layout} (hlayout : tokenize source = .ok layout) : layout.tokens.size ≤ limit := by
  rw [admits, hlayout] at h
  exact of_decide_eq_true h

/-- The last that was written is an error with its kind and what is wrong, behind the place that it
is about if there is one. -/
def Told (cause : Failure) (t : Terminal) : Prop :=
  ∃ place rest, t.written.back? = some (.error (Report.lead place ++ cause.line ++ rest ++ "\n"))

theorem told_complain {t : Terminal} (ht : t.Supplied) {text : String} {cause : Failure}
    (place : Option Location) (rest : String)
    (h : text = Report.lead place ++ cause.line ++ rest) : Told cause (t.complain text) := by
  refine ⟨place, rest, ?_⟩
  rw [written_complain ht, Array.back?_push, h]

section
variable (yaml : Datum → String) (limit : Nat) (o : Options)

/-- What becomes of a program: the terminal that it leaves, and what went wrong, if anything. -/
inductive Handled (t : Terminal) (source : String) : Terminal → Option Failure → Prop
  /-- The program is printed as a tree. -/
  | printed {root : Node} : o.tree = true → parse source limit = .ok root →
      Handled t source (t.print (root.programText 2)) none
  /-- There is no tree to print. -/
  | noTree {e : SourceError} : o.tree = true → parse source limit = .error e →
      e.kind = "LexError" ∨ e.kind = "ParseError" →
      Handled t source (t.complain (e.kind ++ ": " ++ e.message)) (some (.source e))
  /-- The run fails. -/
  | failed {report : Report} {rest : String} : o.tree = false →
      (run host [] source t limit).result = .error (.report report) →
      report.cause.kind ∈ hardErrors →
      report.text = Report.lead report.location ++ report.cause.line ++ rest →
      Handled t source ((run host [] source t limit).machine.host.complain report.text)
        (some report.cause)
  /-- There is nothing to show. -/
  | silent : o.tree = false → (run host [] source t limit).result = .ok (.list []) →
      Handled t source (run host [] source t limit).machine.host none
  /-- The value is shown. -/
  | shown {v : Value} {text : String} : o.tree = false →
      (run host [] source t limit).result = .ok v → v.bodies = [] → v ≠ .list [] →
      valueText yaml o.format v = .ok (some text) →
      Handled t source ((run host [] source t limit).machine.host.print text) none
  /-- The value holds a lambda and is not shown. -/
  | refused {v : Value} : o.tree = false → (run host [] source t limit).result = .ok v →
      v.bodies ≠ [] →
      Handled t source ((run host [] source t limit).machine.host.complain
        "CoercionError: a lambda can't be displayed")
        (some (.fault (.mismatch (.notDisplayable .lambda))))

end

def verdict : Option Failure → Verdict
  | none => .good
  | some _ => .bad

section
variable {yaml : Datum → String} {limit : Nat} {o : Options} {t after : Terminal} {source : String}

theorem showTree_of_error {e : SourceError} (h : parse source limit = .error e)
    (hkind : e.kind = "LexError" ∨ e.kind = "ParseError") :
    showTree limit t source = (t.complain (e.kind ++ ": " ++ e.message), .bad) := by
  rw [showTree, h]
  cases e with
  | tooDeep => exact absurd hkind (by decide)
  | _ => rfl

theorem handled_showTree (ho : o.tree = true) (hlimit : admits limit source) :
    ∃ failure, Handled yaml limit o t source (showTree limit t source).1 failure ∧
      (showTree limit t source).2 = verdict failure := by
  cases hlayout : tokenize source with
  | error e =>
      have hparse : parse source limit = .error e := by
        rw [parse, hlayout]
        rfl
      have hkind := tokenize_error_kind hlayout
      rw [showTree_of_error hparse (.inl hkind)]
      exact ⟨_, .noTree ho hparse (.inl hkind), rfl⟩
  | ok layout =>
      have hsize := size_le_of_admits hlimit hlayout
      have htokens := parse_of_tokenize hlayout limit
      cases hparse : parseTokens limit layout.tokens.toList with
      | error e =>
          rw [hparse] at htokens
          obtain hkind | ⟨-, hlt⟩ := Parser.parseTokens_error_kind hparse
          · rw [showTree_of_error htokens (.inr hkind)]
            exact ⟨_, .noTree ho htokens (.inr hkind), rfl⟩
          · exact absurd hlt (Nat.not_lt.2 hsize)
      | ok root =>
          rw [hparse] at htokens
          have hheight : root.height ≤ limit :=
            (Parser.height_le_of_parseTokens hparse).trans hsize
          have hprint : (parse source limit >>= (printProgram 2 · limit)) =
              .ok (root.programText 2) := by
            rw [htokens]
            exact if_pos hheight
          rw [showTree, hprint]
          exact ⟨none, .printed ho htokens, rfl⟩

theorem handled_showRun (ho : o.tree = false) (hlimit : admits limit source) :
    ∃ failure, Handled yaml limit o t source (showRun yaml limit o t source).1 failure ∧
      (showRun yaml limit o t source).2 = verdict failure := by
  have hproper := proper_run rfl onlyDeclines_host source t limit
  simp only [showRun]
  cases hresult : (run host [] source t limit).result with
  | error stop =>
      obtain ⟨report, rfl, hkind⟩ := hproper.hard stop hresult
      obtain ⟨rest, htext⟩ := (tells_of_run hresult).text
      refine ⟨_, .failed ho hresult (hkind.resolve_right ?_) htext, rfl⟩
      rintro ⟨-, layout, hlayout, hlt⟩
      exact Nat.not_lt.2 (size_le_of_admits hlimit hlayout) hlt
  | ok v =>
      have hdata := hproper.data v hresult
      by_cases hb : v.bodies = []
      · by_cases hne : v = .list []
        · subst hne
          exact ⟨none, .silent ho hresult, rfl⟩
        · obtain ⟨text, htext⟩ := valueText_of_isData yaml o.format hdata hb hne
          dsimp only
          rw [htext]
          exact ⟨none, .shown ho hresult hb hne htext, rfl⟩
      · dsimp only
        rw [valueText_of_bodies yaml o.format hdata hb]
        exact ⟨_, .refused ho hresult hb, rfl⟩

theorem handled_showProgram (yaml : Datum → String) (o : Options) (t : Terminal)
    (hlimit : admits limit source) :
    ∃ failure, Handled yaml limit o t source (showProgram yaml limit o t source).1 failure ∧
      (showProgram yaml limit o t source).2 = verdict failure := by
  unfold showProgram
  cases ho : o.tree with
  | true => exact handled_showTree ho hlimit
  | false => exact handled_showRun ho hlimit

variable {failure : Option Failure}

theorem Handled.follows (h : Handled yaml limit o t source after failure) : t.Follows after := by
  have hrun := follows_run source t limit
  cases h with
  | printed => exact t.follows_write _
  | noTree => exact t.follows_write _
  | failed => exact hrun.trans (follows_write _ _)
  | silent => exact hrun
  | shown => exact hrun.trans (follows_write _ _)
  | refused => exact hrun.trans (follows_write _ _)

/-- What fails is complained about. -/
theorem Handled.told (h : Handled yaml limit o t source after failure) (ht : t.Supplied) :
    ∀ cause ∈ failure, Told cause after := by
  have hrun := (follows_run source t limit).supplied ht
  rintro cause ⟨⟩
  cases h with
  | noTree =>
      refine told_complain ht none "" ?_
      rw [Report.lead_none, String.empty_append, String.append_empty, Failure.line]
  | failed _ _ _ htext => exact told_complain hrun _ _ htext
  | refused => exact told_complain hrun none "" (by decide)

theorem exists_report_of_parse {e : SourceError} (h : parse source limit = .error e)
    (t : Terminal) : ∃ report, (run host [] source t limit).result = .error (.report report) := by
  rw [run_eq, h]
  exact ⟨_, rfl⟩

/-- What goes wrong with a program: it has no tree, or it fails, or it ends in a value that holds a
lambda. -/
theorem Handled.isSome_iff (h : Handled yaml limit o t source after failure) :
    failure.isSome ↔ (∃ e, parse source limit = .error e) ∨
      o.tree = false ∧
        ((∃ report, (run host [] source t limit).result = .error (.report report)) ∨
          ∃ v, (run host [] source t limit).result = .ok v ∧ v.bodies ≠ []) := by
  -- While a value is shown there is a tree, as there is a run that has not failed.
  have hvalue {v : Value} (hv : (run host [] source t limit).result = .ok v)
      (hb : v.bodies = []) :
      ¬((∃ e, parse source limit = .error e) ∨
        o.tree = false ∧
          ((∃ report, (run host [] source t limit).result = .error (.report report)) ∨
            ∃ v, (run host [] source t limit).result = .ok v ∧ v.bodies ≠ [])) := by
    rintro (⟨e, he⟩ | ⟨-, ⟨report, hr⟩ | ⟨w, hw, hne⟩⟩)
    · obtain ⟨report, hr⟩ := exists_report_of_parse he t
      cases hv.symm.trans hr
    · cases hv.symm.trans hr
    · cases hv.symm.trans hw
      exact hne hb
  cases h with
  | printed ho hroot =>
      refine iff_of_false Bool.noConfusion ?_
      rintro (⟨e, he⟩ | ⟨ho', -⟩)
      · cases hroot.symm.trans he
      · cases ho.symm.trans ho'
  | noTree _ he => exact iff_of_true rfl (.inl ⟨_, he⟩)
  | failed ho hr => exact iff_of_true rfl (.inr ⟨ho, .inl ⟨_, hr⟩⟩)
  | silent _ hv => exact iff_of_false Bool.noConfusion (hvalue hv rfl)
  | shown _ hv hb => exact iff_of_false Bool.noConfusion (hvalue hv hb)
  | refused ho hv hb => exact iff_of_true rfl (.inr ⟨ho, .inr ⟨_, hv, hb⟩⟩)

end

/-- A line that was read is not empty, unlike the end of input. -/
theorem ne_empty_of_mem_readableLines {input line : String} (h : line ∈ Text.readableLines input) :
    line ≠ "" := by
  have hchars (read cs : List Char) : ∀ l ∈ Text.readableLinesFrom read cs, l ≠ [] := by
    fun_induction Text.readableLinesFrom read cs with
    | case1 => simp
    | case2 read hread => simpa using hread
    | case3 read cs ih =>
        refine List.forall_mem_cons.2 ⟨?_, ih⟩
        simp
    | case4 read c cs hc ih => exact ih
  obtain ⟨cs, hcs, rfl⟩ := List.mem_map.1 h
  intro hempty
  exact hchars _ _ cs hcs (String.ofList_eq_empty_iff.1 hempty)

def stripped (line : String) : String := String.ofList (Text.trim line.toList)

/-- How the command line takes lines until there is no more, or until a line says to stop. -/
inductive Converses (yaml : Datum → String) (limit : Nat) (o : Options) : Terminal → Terminal → Prop
  | ended {t : Terminal} : t.pending = [] →
      Converses yaml limit o t ((t.ask ">> ").2.print "\nExiting.")
  | exit {t : Terminal} {line : String} {rest : List String} : t.pending = line :: rest →
      stripped line = "exit" → Converses yaml limit o t (t.ask ">> ").2
  | blank {t last : Terminal} {line : String} {rest : List String} : t.pending = line :: rest →
      stripped line = "" → Converses yaml limit o (t.ask ">> ").2 last →
      Converses yaml limit o t last
  | program {t after last : Terminal} {line : String} {rest : List String}
      {failure : Option Failure} : t.pending = line :: rest → stripped line ≠ "" →
      stripped line ≠ "exit" →
      Handled yaml limit o (t.ask ">> ").2 (stripped line) after failure →
      (∀ cause ∈ failure, Told cause after) → Converses yaml limit o after last →
      Converses yaml limit o t last

section
variable {yaml : Datum → String} {limit : Nat} {o : Options}

theorem prompt_succ (turns : Nat) (t : Terminal) :
    prompt yaml limit o (turns + 1) t =
      if (t.ask ">> ").1.isEmpty then ((t.ask ">> ").2.print "\nExiting.", .status 0)
      else if stripped (t.ask ">> ").1 = "exit" then ((t.ask ">> ").2, .status 0)
      else if (stripped (t.ask ">> ").1).isEmpty then prompt yaml limit o turns (t.ask ">> ").2
      else
        match showProgram yaml limit o (t.ask ">> ").2 (stripped (t.ask ">> ").1) with
        | (t, .fatal) => (t, .uncaught)
        | (t, _) => prompt yaml limit o turns t := rfl

/-- By the turns: each takes a line from those pending, and what becomes of it adds none. -/
theorem converses_prompt {turns : Nat} {t : Terminal} (ht : t.Supplied)
    (hlines : ∀ line ∈ t.pending, line ≠ "" ∧ admits limit (stripped line))
    (hturns : t.pending.length < turns) :
    ∃ last, prompt yaml limit o turns t = (last, .status 0) ∧ Converses yaml limit o t last := by
  induction turns generalizing t with
  | zero => omega
  | succ turns ih =>
      have hread := (t.follows_ask ">> ").supplied ht
      rw [prompt_succ]
      cases hp : t.pending with
      | nil =>
          have hline : (t.ask ">> ").1 = "" := by simp only [ask, pending_write, hp]
          rw [hline]
          exact ⟨_, rfl, .ended hp⟩
      | cons line rest =>
          have hline : (t.ask ">> ").1 = line := by rw [ask_of_pending hp]
          have hrest : (t.ask ">> ").2.pending = rest := by rw [ask_of_pending hp]
          have hlt : rest.length < turns := by
            rw [hp, List.length_cons] at hturns
            omega
          rw [hp] at hlines
          obtain ⟨⟨hne, hlimit⟩, hlines⟩ := List.forall_mem_cons.1 hlines
          rw [hline, if_neg (mt String.isEmpty_iff.1 hne)]
          split
          · rename_i hexit
            exact ⟨_, rfl, .exit hp hexit⟩
          split
          · rename_i hblank
            rw [← hrest] at hlines hlt
            obtain ⟨last, hlast, hconverses⟩ := ih hread hlines hlt
            exact ⟨last, hlast, .blank hp (String.isEmpty_iff.1 hblank) hconverses⟩
          · rename_i hexit hblank
            obtain ⟨failure, hhandled, hverdict⟩ :=
              handled_showProgram yaml o (t.ask ">> ").2 hlimit
            generalize showProgram yaml limit o (t.ask ">> ").2 (stripped line) = shown
              at hhandled hverdict
            obtain ⟨after, verdict⟩ := shown
            have hleft := hhandled.follows.pending
            rw [hrest] at hleft
            obtain ⟨last, hlast, hconverses⟩ := ih (hhandled.follows.supplied hread)
              (fun l hl => hlines l (hleft.subset hl)) (Nat.lt_of_le_of_lt hleft.length_le hlt)
            refine ⟨last, ?_, .program hp (mt String.isEmpty_iff.2 hblank) hexit hhandled
              (hhandled.told hread) hconverses⟩
            cases failure <;> cases hverdict <;> exact hlast

end

/-- The command line deals with every program. A script ends in status 0 or 1, and in status 1
exactly when it has no tree, fails, or ends in a value that holds a lambda; then the error is the
last that is written. Line after line, for any input, the command line goes on until it is told to
stop or there is no more input. This is so for each way to write YAML, and as long as the limit on
nesting admits the programs. -/
theorem command_line_goes_on (yaml : Datum → String) (limit : Nat) (o : Options) (input : String) :
    let t : Terminal := { pending := Text.readableLines input }
    (∀ path text, let source := String.ofList (Text.unifyLineEnds text.toList)
      admits limit source → ∃ after failure,
        script yaml limit o path (some text) t =
          (after, .status (if failure.isSome then 1 else 0)) ∧
        Handled yaml limit o t source after failure ∧ (∀ cause ∈ failure, Told cause after) ∧
        (failure.isSome ↔ (∃ e, parse source limit = .error e) ∨
          o.tree = false ∧
            ((∃ report, (run host [] source t limit).result = .error (.report report)) ∨
              ∃ v, (run host [] source t limit).result = .ok v ∧ v.bodies ≠ []))) ∧
    ((∀ line ∈ t.pending, admits limit (stripped line)) →
      ∃ last, interactive yaml limit o t = (last, .status 0) ∧
        Converses yaml limit o
          ((t.print "pcode REPL v0.1").print "Type 'exit' or press Ctrl+D to quit.") last) := by
  intro t
  have ht : t.Supplied := ⟨rfl, rfl⟩
  refine ⟨fun path text => ?_, fun hlines => ?_⟩
  · intro source hlimit
    obtain ⟨failure, hhandled, hverdict⟩ := handled_showProgram yaml o t hlimit
    have hscript : script yaml limit o path (some text) t =
        ((showProgram yaml limit o t source).1, (showProgram yaml limit o t source).2.exit) := rfl
    refine ⟨_, failure, ?_, hhandled, hhandled.told ht, hhandled.isSome_iff⟩
    rw [hscript, hverdict]
    cases failure <;> rfl
  · have hgreeted : t.Follows ((t.print "pcode REPL v0.1").print
        "Type 'exit' or press Ctrl+D to quit.") := (t.follows_write _).trans (follows_write _ _)
    refine converses_prompt (hgreeted.supplied ht) (fun line hline => ?_) (Nat.lt_succ_self _)
    have hmem := hgreeted.pending.subset hline
    exact ⟨ne_empty_of_mem_readableLines hmem, hlines line hmem⟩

/-- A script that fails, and three lines of which the first two fail. -/
theorem command_line_goes_on_sample :
    let t : Terminal := { pending := Text.readableLines "nope\nLAMBDA 1\nDISPLAY(\"a\")\n" }
    let greeted := (t.print "pcode REPL v0.1").print "Type 'exit' or press Ctrl+D to quit."
    let source := "x <- 1\nx()"
    let yaml : Datum → String := fun _ => ""
    admits 30 source ∧ (∀ line ∈ t.pending, admits 30 (stripped line)) ∧
    (∃ after cause, script yaml 30 {} "x" (some source) t = (after, .status 1) ∧
      Handled yaml 30 {} t source after (some cause) ∧ Told cause after) ∧
    ∃ last, interactive yaml 30 {} t = (last, .status 0) ∧ Converses yaml 30 {} greeted last ∧
      last.errors = "Error on line 1, col 1: UnknownIdentifier: nope\n(line 1, col 1)\n" ++
        "> 1 | nope\n    | ^\nCoercionError: a lambda can't be displayed\n" := by
  intro t greeted source yaml
  have hsource : admits 30 source := by decide +kernel
  have hlines : ∀ line ∈ t.pending, admits 30 (stripped line) := by decide +kernel
  have hfails : (script yaml 30 {} "x" (some source) t).2 = .status 1 := by decide +kernel
  have herrors : (interactive yaml 30 {} t).1.errors =
      "Error on line 1, col 1: UnknownIdentifier: nope\n(line 1, col 1)\n" ++
        "> 1 | nope\n    | ^\nCoercionError: a lambda can't be displayed\n" := by
    decide +kernel
  obtain ⟨hscript, hinteractive⟩ := command_line_goes_on yaml 30 {}
    "nope\nLAMBDA 1\nDISPLAY(\"a\")\n"
  have hunified : String.ofList (Text.unifyLineEnds source.toList) = source := by decide +kernel
  have hdone := hscript "x" source
  rw [hunified] at hdone
  obtain ⟨after, failure, hafter, hhandled, htold, -⟩ := hdone hsource
  obtain ⟨last, hlast, hconverses⟩ := hinteractive hlines
  rw [hlast] at herrors
  refine ⟨hsource, hlines, ?_, last, hlast, hconverses, herrors⟩
  cases failure with
  | none =>
      rw [hafter] at hfails
      cases hfails
  | some cause => exact ⟨after, cause, hafter, hhandled, htold cause rfl⟩

end Console

end Pseudocode
