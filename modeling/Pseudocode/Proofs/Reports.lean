import Pseudocode.Proofs.Bodies
import Pseudocode.Report

/-!
# Reports and what comes out in their place

A report on a fault has the words of the fault and the arguments of all calls that have not
returned. Both are asked for when the report is made, and either may end in another fault,
which then comes out of the run. Nothing else can go wrong, and nothing in the bodies of
lambdas has a part in it. A report that is made says what went wrong at its very start.
-/
namespace Pseudocode

/-- Both computations succeed, or both fail in the same way. -/
inductive FailAlike {α β ε : Type} : Except ε α → Except ε β → Prop
  | ok (a : α) (b : β) : FailAlike (.ok a) (.ok b)
  | error (e : ε) : FailAlike (.error e) (.error e)

namespace FailAlike

section
variable {α β γ δ ε : Type}

theorem refl (x : Except ε α) : FailAlike x x := by
  cases x with
  | ok a => exact .ok a a
  | error e => exact .error e

theorem symm {x : Except ε α} {y : Except ε β} (h : FailAlike x y) : FailAlike y x := by
  cases h with
  | ok a b => exact .ok b a
  | error e => exact .error e

theorem trans {x : Except ε α} {y : Except ε β} {z : Except ε γ} (hxy : FailAlike x y)
    (hyz : FailAlike y z) : FailAlike x z := by
  cases hxy with
  | ok a b =>
      cases hyz with
      | ok b c => exact .ok a c
  | error e =>
      cases hyz with
      | error e => exact .error e

theorem bind {x : Except ε α} {y : Except ε β} {g : α → Except ε γ} {h : β → Except ε δ}
    (hxy : FailAlike x y) (hgh : ∀ a b, FailAlike (g a) (h b)) :
    FailAlike (x >>= g) (y >>= h) := by
  cases hxy with
  | ok a b => exact hgh a b
  | error e => exact .error e

theorem bind_pure (x : Except ε α) (g : α → β) : FailAlike (x >>= fun a => pure (g a)) x := by
  cases x with
  | ok a => exact .ok _ a
  | error e => exact .error e

theorem mapM {f : α → Except ε γ} {k : α → β} (hf : ∀ a b, k a = k b → FailAlike (f a) (f b))
    {as bs : List α} (h : as.map k = bs.map k) : FailAlike (as.mapM f) (bs.mapM f) := by
  induction as generalizing bs with
  | nil =>
      obtain rfl := List.map_eq_nil_iff.1 h.symm
      exact .ok _ _
  | cons a as ih =>
      obtain ⟨b, bs, rfl, hb, hbs⟩ := List.map_eq_cons_iff.1 h.symm
      rw [List.mapM_cons, List.mapM_cons]
      exact (hf a b hb.symm).bind fun _ _ => (ih hbs.symm).bind fun _ _ => .ok _ _

theorem eq_error_iff {x : Except ε α} {y : Except ε β} (h : FailAlike x y) {e : ε} :
    x = .error e ↔ y = .error e := by
  cases h with
  | ok a b => exact iff_of_false nofun nofun
  | error e' => rw [Except.error.injEq, Except.error.injEq]

end

end FailAlike

/-- A traversal fails with its first failure. -/
theorem mapM_eq_error_iff {α β ε : Type} {f : α → Except ε β} {as : List α} {e : ε} :
    as.mapM f = .error e ↔ ∃ before a after, as = before ++ a :: after ∧
      (∀ b ∈ before, ∃ c, f b = .ok c) ∧ f a = .error e := by
  induction as with
  | nil =>
      refine iff_of_false nofun ?_
      rintro ⟨before, a, after, h, -⟩
      cases before <;> cases h
  | cons a as ih =>
      rw [List.mapM_cons]
      cases ha : f a with
      | error e' =>
          constructor
          · intro h
            cases h
            exact ⟨[], a, as, rfl, List.forall_mem_nil _, ha⟩
          · rintro ⟨before, b, after, h, hbefore, hb⟩
            cases before with
            | nil =>
                cases h
                exact congrArg Except.error (Except.error.inj (ha.symm.trans hb))
            | cons first before =>
                cases h
                obtain ⟨c, hc⟩ := hbefore a List.mem_cons_self
                cases ha.symm.trans hc
      | ok c =>
          refine (FailAlike.bind_pure (as.mapM f) (c :: ·)).eq_error_iff.trans (ih.trans ⟨?_, ?_⟩)
          · rintro ⟨before, b, after, rfl, hbefore, hb⟩
            exact ⟨a :: before, b, after, rfl, List.forall_mem_cons.2 ⟨⟨c, ha⟩, hbefore⟩, hb⟩
          · rintro ⟨before, b, after, h, hbefore, hb⟩
            cases before with
            | nil =>
                cases h
                cases ha.symm.trans hb
            | cons first before =>
                cases h
                exact ⟨before, b, after, rfl, (List.forall_mem_cons.1 hbefore).2, hb⟩

/-- There is something to say about the fault. -/
def Fault.hasWords : Fault → Bool
  | interrupt _ | wordless _ => false
  | _ => true

namespace Report

/-- The fault that comes out of a run in place of a report. Either the run was called off, or the
fault that ended it has no words, or there is an argument without a text among those of the calls
that have not returned, and it is the first. -/
inductive Replaced (functionText : Function → Except Fault String) (calls : List Activation) :
    Fault → Fault → Prop
  | interrupt (name : String) : Replaced functionText calls (.interrupt name) (.interrupt name)
  | wordless (instead : Fault) : Replaced functionText calls (.wordless instead) instead
  | argument {fault escaped : Fault} {before after : List Value} {v : Value} :
      fault.hasWords → calls.reverse.flatMap Activation.args = before ++ v :: after →
      (∀ w ∈ before, ∃ text, w.report functionText = .ok text) →
      v.report functionText = .error escaped → Replaced functionText calls fault escaped

section
variable {functionText : Function → Except Fault String} {calls : List Activation}
  {fault escaped : Fault}

/-- A stack trace fails at the first argument without a text. -/
theorem failAlike_stackTrace (calls : List Activation) :
    FailAlike (stackTrace functionText calls)
      ((calls.reverse.flatMap Activation.args).mapM (Value.report functionText)) := by
  have hframes (frames : List Activation) : FailAlike (frames.mapM (activation functionText))
      ((frames.flatMap Activation.args).mapM (Value.report functionText)) := by
    induction frames with
    | nil => exact .ok _ _
    | cons a frames ih =>
        rw [List.mapM_cons, List.flatMap_cons, List.mapM_append]
        exact (FailAlike.bind_pure _ _).bind fun _ _ => ih.bind fun _ _ => .ok _ _
  cases calls with
  | nil => exact .ok _ _
  | cons a calls => exact (FailAlike.bind_pure _ _).trans (hframes _)

theorem isEmpty_stackTrace {trace : String} (hcalls : calls ≠ [])
    (h : stackTrace functionText calls = .ok trace) : ¬ trace.isEmpty := by
  cases calls with
  | nil => exact absurd rfl hcalls
  | cons a calls =>
      have hframes : ((a :: calls).reverse.mapM (activation functionText) >>= fun frames =>
          pure ("pcode stacktrace: " ++ String.intercalate " " frames)) = .ok trace := h
      cases hall : (a :: calls).reverse.mapM (activation functionText) with
      | error escaped =>
          rw [hall] at hframes
          cases hframes
      | ok frames =>
          rw [hall] at hframes
          cases hframes
          simp [String.isEmpty_iff]

theorem exists_faultLine (calls : List Activation) (h : fault.hasWords) :
    ∃ line, faultLine calls fault = .ok line := by
  cases fault <;> first | exact ⟨_, rfl⟩ | cases h

/-- A report on a fault is made unless something in it has no text. -/
theorem ofFault_eq_error_iff {source : String} {m : Machine σ} :
    ofFault functionText source m fault = .error escaped ↔
      Replaced functionText m.calls fault escaped := by
  by_cases hwords : fault.hasWords
  · obtain ⟨line, hline⟩ := exists_faultLine m.calls hwords
    have hmade : FailAlike (ofFault functionText source m fault)
        ((m.calls.reverse.flatMap Activation.args).mapM (Value.report functionText)) := by
      rw [ofFault, hline]
      exact (FailAlike.bind_pure _ _).trans (failAlike_stackTrace m.calls)
    rw [hmade.eq_error_iff, mapM_eq_error_iff]
    constructor
    · rintro ⟨before, v, after, hargs, hbefore, hv⟩
      exact .argument hwords hargs hbefore hv
    · intro h
      cases h with
      | interrupt | wordless => cases hwords
      | argument _ hargs hbefore hv => exact ⟨_, _, _, hargs, hbefore, hv⟩
  · constructor
    · intro h
      cases fault with
      | interrupt name =>
          cases h
          exact .interrupt name
      | wordless instead =>
          cases h
          exact .wordless escaped
      | _ => exact absurd rfl hwords
    · intro h
      cases h with
      | interrupt | wordless => rfl
      | argument hhas => exact absurd hhas hwords

/-- A fault with words is reported if all arguments have texts. -/
theorem not_replaced (hwords : fault.hasWords)
    (hargs : ∀ a ∈ calls, ∀ v ∈ a.args, ∃ text, v.report functionText = .ok text) :
    ¬ Replaced functionText calls fault escaped := by
  intro h
  cases h with
  | interrupt | wordless => cases hwords
  | @argument _ _ before after v _ hsplit _ hv =>
      have hmem : v ∈ calls.reverse.flatMap Activation.args := by
        rw [hsplit]
        exact List.mem_append_right _ List.mem_cons_self
      obtain ⟨a, ha, hva⟩ := List.mem_flatMap.1 hmem
      obtain ⟨text, htext⟩ := hargs a (List.mem_reverse.1 ha) v hva
      cases htext.symm.trans hv

/-- What a report on a fault says: the words of the fault, the place that was looked at last, and
the calls that have not returned. -/
theorem of_ofFault {source : String} {m : Machine σ} {report : Report}
    (h : ofFault functionText source m fault = .ok report) :
    report.cause = .fault fault ∧ report.location = m.focus.bind Location.pointed? ∧
    ∃ line, faultLine m.calls fault = .ok line ∧
      (m.calls = [] → report.message = located source m.focus line) ∧
      (m.calls ≠ [] → ∃ trace, stackTrace functionText m.calls = .ok trace ∧
        report.message = located source m.focus line ++ "\n" ++ trace) := by
  rw [ofFault] at h
  cases hline : faultLine m.calls fault with
  | error escaped =>
      rw [hline] at h
      cases h
  | ok line =>
      cases htrace : stackTrace functionText m.calls with
      | error escaped =>
          rw [hline, htrace] at h
          cases h
      | ok trace =>
          rw [hline, htrace] at h
          cases h
          refine ⟨rfl, rfl, line, rfl, fun hnone => ?_, fun hsome => ⟨trace, rfl, ?_⟩⟩
          · rw [hnone] at htrace
            cases htrace
            rfl
          · exact if_neg (isEmpty_stackTrace hsome htrace)

end

end Report

def Fault.line : Fault → String
  | unknownName name => "UnknownIdentifier: " ++ name
  | fault => fault.kind ++ ": " ++ fault.message

def Failure.line : Failure → String
  | source e => e.kind ++ ": " ++ e.message
  | fault f => f.line

theorem Failure.line_ne_empty (cause : Failure) : cause.line ≠ "" := by
  have hcolon (kind message : String) : kind ++ ": " ++ message ≠ "" := by simp
  cases cause with
  | source e => exact hcolon _ _
  | fault f =>
      cases f with
      | unknownName name =>
          show "UnknownIdentifier: " ++ name ≠ ""
          simp
      | _ => exact hcolon _ _

namespace Report

/-- The report begins with what went wrong. -/
def Tells (r : Report) : Prop := ∃ rest, r.message = r.cause.line ++ rest

/-- The place that a printed report begins with. -/
def lead : Option Location → String
  | some ⟨some line, some column⟩ => s!"Error on line {line}, col {column}: "
  | some ⟨some line, none⟩ => s!"Error on line {line}: "
  | _ => ""

theorem lead_none : lead none = "" := rfl

theorem Tells.text {r : Report} (h : r.Tells) :
    ∃ rest, r.text = lead r.location ++ r.cause.line ++ rest := by
  obtain ⟨rest, hrest⟩ := h
  have hmessage : r.message ≠ "" := by
    rw [hrest]
    simp [r.cause.line_ne_empty]
  have hheadline (l : Location) : headline (some r.message) l = lead (some l) ++ r.message := by
    rw [headline]
    · rcases l with ⟨_ | line, _ | column⟩
      · exact String.empty_append.symm
      · exact String.empty_append.symm
      · rfl
      · rfl
    · exact hmessage
  refine ⟨rest, ?_⟩
  rw [String.append_assoc, ← hrest, Report.text, hheadline]
  cases r.location <;> rfl

theorem tells_ofSourceError (source : String) (e : SourceError) :
    (ofSourceError source e).Tells := by
  unfold ofSourceError
  split
  · exact ⟨"", (String.append_empty).symm⟩
  · rename_i line column _
    let rows := excerpt source line column
    exact ⟨" " ++ place line column ++ if rows.isEmpty then "" else "\n" ++ rows,
      by simp only [Failure.line, String.append_assoc, rows]⟩

theorem exists_faultLine_eq (hline : faultLine calls fault = .ok line) :
    ∃ rest, line = fault.line ++ rest := by
  cases fault with
  | interrupt | wordless => cases hline
  | invalidArguments =>
      cases hline
      exact ⟨_, rfl⟩
  | _ =>
      cases hline
      exact ⟨"", String.append_empty.symm⟩

theorem exists_located_eq (source : String) (focus : Option Location) (text : String) :
    ∃ rest, located source focus text = text ++ rest := by
  unfold located
  split
  · rename_i line column
    exact ⟨"\n" ++ place line column ++ "\n" ++ excerpt source line column,
      by simp only [String.append_assoc]⟩
  · exact ⟨"", String.append_empty.symm⟩

theorem tells_ofFault {functionText : Function → Except Fault String} {source : String}
    {m : Machine σ} {fault : Fault} {report : Report}
    (h : ofFault functionText source m fault = .ok report) : report.Tells := by
  obtain ⟨hcause, -, line, hline, hidle, hcalls⟩ := of_ofFault h
  obtain ⟨rest, rfl⟩ := exists_faultLine_eq hline
  obtain ⟨more, hmore⟩ := exists_located_eq source m.focus (fault.line ++ rest)
  rw [Tells, hcause]
  by_cases hnone : m.calls = []
  · exact ⟨rest ++ more, by rw [hidle hnone, hmore, String.append_assoc]; rfl⟩
  · obtain ⟨trace, -, htrace⟩ := hcalls hnone
    refine ⟨rest ++ more ++ "\n" ++ trace, ?_⟩
    rw [htrace, hmore, Failure.line]
    simp only [String.append_assoc]

end Report

namespace Value

section
variable (f : Node → Node)

mutual

theorem failAlike_print (indent level : Int) : (v : Value) →
    FailAlike ((v.mapBodies f).print indent level) (v.print indent level)
  | list items => (failAlike_printAll indent level items).bind fun _ _ => .ok _ _
  | literal _ | lambda _ | function _ => .ok _ _
  | integer _ | nothing | tuple _ | foreign _ | derived _ _ | derivedList _ _ => .error _

theorem failAlike_printAll (indent level : Int) : (vs : List Value) →
    FailAlike (printAll indent level (mapBodiesAll f vs)) (printAll indent level vs)
  | [] => .ok _ _
  | v :: vs =>
      (failAlike_print indent level v).bind fun _ _ =>
        (failAlike_printAll indent level vs).bind fun _ _ => .ok _ _

end

variable (functionText : Function → Except Fault String)

mutual

theorem failAlike_shown : (v : Value) →
    FailAlike ((v.mapBodies f).shown functionText) (v.shown functionText)
  | list items => (failAlike_shownAll items).bind fun _ _ => .ok _ _
  | tuple [] => .ok _ _
  | tuple [v] => (failAlike_shown v).bind fun _ _ => .ok _ _
  | tuple (v :: w :: vs) => (failAlike_shownAll (v :: w :: vs)).bind fun _ _ => .ok _ _
  | literal _ | lambda _ | integer _ | nothing => .ok _ _
  | function _ | foreign _ | derived _ _ | derivedList _ _ => .refl _

theorem failAlike_shownAll : (vs : List Value) →
    FailAlike (shownAll functionText (mapBodiesAll f vs)) (shownAll functionText vs)
  | [] => .ok _ _
  | v :: vs =>
      (failAlike_shown v).bind fun _ _ => (failAlike_shownAll vs).bind fun _ _ => .ok _ _

end

theorem failAlike_report (v : Value) :
    FailAlike ((v.mapBodies f).report functionText) (v.report functionText) := by
  have hprint := v.failAlike_print f 2 0
  unfold report
  generalize (v.mapBodies f).print 2 0 = x at hprint ⊢
  generalize v.print 2 0 = y at hprint ⊢
  cases hprint with
  | ok a b => exact .ok a b
  | error e => exact v.failAlike_shown f functionText

end

end Value

/-- The bodies of lambdas do not decide whether there is a report. -/
theorem Report.failAlike_ofFault {f : Node → Node} (functionText : Function → Except Fault String)
    (source source' : String) {m : Machine σ} {m' : Machine τ}
    (h : m.calls.map (fun a => a.args.map (Value.mapBodies f)) =
      m'.calls.map fun a => a.args.map (Value.mapBodies f)) (fault : Fault) :
    FailAlike (ofFault functionText source m fault) (ofFault functionText source' m' fault) := by
  have hline : FailAlike (faultLine m.calls fault) (faultLine m'.calls fault) := by
    cases fault <;> first | exact .error _ | exact .ok _ _
  have hvalue (v w : Value) (hvw : v.mapBodies f = w.mapBodies f) :
      FailAlike (v.report functionText) (w.report functionText) := by
    have hv := v.failAlike_report f functionText
    rw [hvw] at hv
    exact hv.symm.trans (w.failAlike_report f functionText)
  have hargs : (m.calls.reverse.flatMap Activation.args).map (Value.mapBodies f) =
      (m'.calls.reverse.flatMap Activation.args).map (Value.mapBodies f) := by
    rw [List.map_flatMap, List.map_flatMap, List.flatMap_def, List.flatMap_def, List.map_reverse,
      List.map_reverse, h]
  have htrace := (failAlike_stackTrace m.calls).trans
    ((FailAlike.mapM hvalue hargs).trans (failAlike_stackTrace m'.calls).symm)
  exact hline.bind fun _ _ => htrace.bind fun _ _ => .ok _ _

end Pseudocode
