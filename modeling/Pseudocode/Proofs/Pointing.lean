import Pseudocode.Proofs.CallStack
import Pseudocode.Proofs.Respect
import Pseudocode.Proofs.RunLog

/-!
# Reports point into the text

Whatever a failed run points at is a place of its source text: behind some characters that the
text begins with. The places of all tokens are such places, those of implicit blocks too. An error
of the parser is reported at a token that it has read, and a fault at a node that has its place
from a token.
-/
namespace Pseudocode

/-- The place of a text behind some of its characters. -/
def InText (source : List Char) (l : Location) : Prop :=
  ∃ before after, source = before ++ after ∧ l = .ofPosition (.after before)

namespace Layout

/-- All tokens of the layout stand at such places. -/
def StandIn (S : Location → Prop) (s : Layout) : Prop := ∀ t ∈ s.tokens.toList, S t.location

section
variable {S : Location → Prop} {s : Layout} {p : Position}

theorem StandIn.emit (h : s.StandIn S) (hp : S (.ofPosition p)) (kind : Token.Kind) :
    (s.emit kind p).StandIn S := by
  intro t ht
  rw [Layout.emit, Array.toList_push] at ht
  rcases List.mem_append.1 ht with ht | ht
  · exact h t ht
  · rw [List.mem_singleton.1 ht]
    exact hp

theorem StandIn.openWith (h : s.StandIn S) (hp : S (.ofPosition p)) (bracket : Bracket)
    (kind : Token.Kind) : (s.openWith bracket kind p).StandIn S :=
  h.emit hp kind

theorem StandIn.closeTop (h : s.StandIn S) (hp : S (.ofPosition p)) :
    (s.closeTop p).StandIn S := by
  unfold Layout.closeTop
  split
  · unfold closeBlock
    split
    · intro t ht
      rw [Array.toList_pop] at ht
      exact h t ((List.dropLast_sublist _).subset ht)
    · exact h.emit hp .blockClose
  · exact h

theorem StandIn.closeArrows (h : s.StandIn S) (hp : S (.ofPosition p)) :
    (s.closeArrows p).StandIn S :=
  closeArrows_induct p (fun _ _ _ _ _ h => h.closeTop hp) s h

/-- Tokens stand where their lexeme begins, and the opener of a line where its line feed ends. -/
theorem StandIn.taken (h : s.StandIn S) {l : Lexeme} {next : Layout} (ht : Taken s p l next)
    (hp : S (.ofPosition p)) (hend : S (.ofPosition (p.advance l.chars))) : next.StandIn S := by
  have harrows := h.closeArrows hp
  cases ht with
  | blank | unclosed | ignored | joined => exact h
  | token _ => exact h.emit hp _
  | arrow => exact (h.emit hp .arrow).openWith hp .arrow _
  | parenOpen => exact h.openWith hp .paren _
  | braceOpen => exact (h.openWith hp .brace _).openWith hp .statement _
  | broken _ _ _ => exact (harrows.closeTop hp).openWith hend .statement _
  | parenClose _ _ => exact harrows.emit hp .argumentsClose
  | braceClose _ _ _ => exact (harrows.closeTop hp).emit hp .blockClose
  | stray _ => exact harrows.emit hp _

theorem StandIn.foldl_step (h : s.StandIn S) (hst : Stacked s.frames) (ls : List Lexeme)
    (hp : ∀ front, front <+: ls.flatMap Lexeme.chars → S (.ofPosition (p.advance front))) :
    ((Lexeme.place p ls).foldl Layout.step s).StandIn S ∧
      Stacked ((Lexeme.place p ls).foldl Layout.step s).frames := by
  induction ls generalizing p s with
  | nil => exact ⟨h, hst⟩
  | cons l ls ih =>
      have hstep := h.taken (step_taken hst p l) (hp [] List.nil_prefix)
        (hp l.chars (List.prefix_append _ _))
      refine ih hstep (hst.step (p, l)) fun front hfront => ?_
      rw [← Position.advance_append]
      exact hp _ ((List.prefix_append_right_inj l.chars).2 hfront)

theorem StandIn.finish (h : s.StandIn S) (hst : Stacked s.frames) (hp : S (.ofPosition p)) :
    (s.finish p).StandIn S := by
  obtain ⟨f, rest, -, ⟨-, hlast⟩ | ⟨-, hlast⟩⟩ := finish_cases hst p
  · rw [hlast]
    exact ((h.closeArrows hp).closeTop hp).emit hp .blockClose
  · rw [hlast]
    exact (h.closeArrows hp).emit hp .blockClose

end

theorem inText_ofSource (source : List Char) : (ofSource source).StandIn (InText source) := by
  have hplace : ∀ front, front <+: source →
      InText source (.ofPosition (Position.start.advance front)) := by
    rintro front ⟨rest, rfl⟩
    exact ⟨front, rest, rfl, by rw [Position.advance_start]⟩
  have hempty : StandIn (InText source) {} := fun t ht => by cases ht
  have hstart : StandIn (InText source) start :=
    (hempty.emit (hplace [] List.nil_prefix) _).openWith (hplace [] List.nil_prefix) .statement _
  obtain ⟨hfold, hst⟩ := hstart.foldl_step (p := .start) stacked_start (Lexeme.all source)
    (by rwa [Lexeme.flatMap_chars_all])
  exact hfold.finish hst (hplace source (List.prefix_refl source))

end Layout

theorem inText_of_mem_tokens {source : String} {layout : Layout} (h : tokenize source = .ok layout)
    {t : Token} (ht : t ∈ layout.tokens.toList) : InText source.toList t.location := by
  rw [eq_ofSource_of_tokenize h] at ht
  exact Layout.inText_ofSource source.toList t ht

namespace Parser

def Frame.token : Frame → Token
  | group _ opener _ => opener
  | assign _ arrow => arrow
  | operation _ _ operator => operator
  | lambda word => word

/-- The tokens that an error could still be reported at. -/
def State.pending : State → List Token
  | ready stack => stack.map Frame.token
  | named _ word stack => word :: stack.map Frame.token
  | complete _ => []

/-- The parser goes on with such tokens, or reports an error at one of them. -/
inductive Knows (known : List Token) : Except SourceError State → Prop
  | ok {state : State} : state.pending ⊆ known → Knows known (.ok state)
  | error {e : SourceError} {t : Token} : t ∈ known → e.location = t.location →
      Knows known (.error e)

theorem Frame.location_missing (frame : Frame) : frame.missing.location = frame.token.location := by
  cases frame <;> rfl

theorem pending_deliver (node : Node) (stack : List Frame) :
    (deliver node stack).pending ⊆ stack.map Frame.token := by
  induction stack generalizing node with
  | nil => exact List.nil_subset _
  | cons frame stack ih =>
      cases frame with
      | group group opener nodes => exact List.Subset.refl _
      | assign name arrow => exact List.subset_cons_of_subset _ (ih _)
      | operation name left operator => exact List.subset_cons_of_subset _ (ih _)
      | lambda word => exact List.subset_cons_of_subset _ (ih _)

theorem knows_close (token : Token) (stack : List Frame) :
    Knows (token :: stack.map Frame.token) (close token stack) := by
  cases stack with
  | nil => exact .error List.mem_cons_self rfl
  | cons frame stack =>
      have hmissing : Knows (token :: (frame :: stack).map Frame.token) (.error frame.missing) :=
        .error (List.mem_cons_of_mem _ List.mem_cons_self) frame.location_missing
      cases frame with
      | group group opener nodes =>
          rw [close]
          split
          · exact .ok (List.subset_cons_of_subset _ (List.subset_cons_of_subset _
              (pending_deliver _ stack)))
          · exact .error List.mem_cons_self rfl
      | _ => exact hmissing

theorem knows_operate (name : String) (token : Token) (stack : List Frame) :
    Knows (token :: stack.map Frame.token) (operate name token stack) := by
  unfold operate
  split
  · exact .ok (List.Subset.refl _)
  · exact .error List.mem_cons_self rfl

theorem knows_read (token : Token) (stack : List Frame) :
    Knows (token :: stack.map Frame.token) (read token stack) := by
  have hdeliver (node : Node) : Knows (token :: stack.map Frame.token) (.ok (deliver node stack)) :=
    .ok (List.subset_cons_of_subset _ (pending_deliver node stack))
  unfold read
  split
  · exact .ok (List.Subset.refl _)
  · exact .ok (List.Subset.refl _)
  · exact knows_close token stack
  · exact knows_close token stack
  · exact .ok (List.Subset.refl _)
  · exact hdeliver _
  · exact hdeliver _
  · exact knows_operate _ token stack
  · exact knows_operate _ token stack
  · exact .ok (List.Subset.refl _)
  · exact .error List.mem_cons_self rfl

theorem Knows.mono {known more : List Token} {result : Except SourceError State}
    (h : Knows known result) (hmore : known ⊆ more) : Knows more result := by
  cases h with
  | ok hpending => exact .ok (List.Subset.trans hpending hmore)
  | error ht hlocation => exact .error (hmore ht) hlocation

theorem knows_advance (state : State) (token : Token) :
    Knows (token :: state.pending) (advance state token) := by
  cases state with
  | complete root => exact .error List.mem_cons_self rfl
  | ready stack => exact knows_read token stack
  | named name word stack =>
      obtain ⟨-, ha⟩ | ⟨-, ha⟩ | ⟨-, after, hafter, -, ha⟩ | ⟨root, -, ha⟩ :=
        advance_named_cases name word token stack <;> rw [ha]
      · exact .ok (List.cons_subset_cons _ (List.subset_cons_self _ _))
      · exact .ok (List.cons_subset_cons _ (List.subset_cons_self _ _))
      · have hpending := pending_deliver (.var name (some word.location)) stack
        rw [hafter] at hpending
        exact (knows_read token after).mono
          (List.cons_subset_cons _ (List.subset_cons_of_subset _ hpending))
      · exact .error List.mem_cons_self rfl

theorem knows_run (state : State) {known : List Token} (h : state.pending ⊆ known)
    (tokens : List Token) : Knows (known ++ tokens) (run state tokens) := by
  induction tokens generalizing state known with
  | nil => exact .ok (List.Subset.trans h (List.subset_append_left _ _))
  | cons token tokens ih =>
      have hstep := (knows_advance state token).mono (List.cons_subset_cons token h)
      rw [run_cons]
      generalize advance state token = result at hstep ⊢
      cases hstep with
      | ok hpending => exact (ih _ hpending).mono (by simp)
      | error ht hlocation =>
          refine .error ?_ hlocation
          rcases List.mem_cons.1 ht with rfl | ht
          · exact List.mem_append_right _ List.mem_cons_self
          · exact List.mem_append_left _ ht

/-- An error of the parser is reported at one of its tokens, or nowhere. -/
theorem location_of_parseTokens_error {limit : Nat} {tokens : List Token} {e : SourceError}
    (h : parseTokens limit tokens = .error e) :
    e.location = {} ∨ ∃ t ∈ tokens, e.location = t.location := by
  by_cases hdeep : Overflows limit (.ready []) tokens
  · rw [parseTokens_eq_tooDeep hdeep] at h
    cases h
    exact .inl rfl
  · rw [parseTokens_eq_run hdeep] at h
    have hrun := knows_run (.ready []) (List.nil_subset []) tokens
    rw [List.nil_append] at hrun
    generalize run (.ready []) tokens = result at hrun h
    cases hrun with
    | error ht hlocation =>
        cases h
        exact .inr ⟨_, ht, hlocation⟩
    | @ok state hpending =>
        cases state with
        | complete node => cases h
        | named name word stack =>
            cases h
            exact .inr ⟨word, hpending List.mem_cons_self, rfl⟩
        | ready stack =>
            cases stack with
            | nil =>
                cases h
                exact .inl rfl
            | cons frame stack =>
                cases h
                exact .inr ⟨_, hpending List.mem_cons_self, frame.location_missing⟩

end Parser

/-- An error in a text points into the text, or nowhere. -/
theorem inText_of_parse_error {source : String} {limit : Nat} {e : SourceError}
    (h : parse source limit = .error e) : e.location = {} ∨ InText source.toList e.location := by
  cases ht : tokenize source with
  | ok layout =>
      rw [parse_of_tokenize ht] at h
      refine (Parser.location_of_parseTokens_error h).imp_right ?_
      rintro ⟨t, hmem, hlocation⟩
      rw [hlocation]
      exact inText_of_mem_tokens ht hmem
  | error e' =>
      rw [parse, ht] at h
      cases h
      simp only [tokenize] at ht
      split at ht
      · rename_i p hfound
        cases ht
        obtain ⟨⟨q, l⟩, hmem, hq⟩ := List.exists_of_findSome?_eq_some hfound
        obtain ⟨before, rest, hsplit⟩ := List.append_of_mem hmem
        have htext := Lexeme.flatMap_chars_place .start (Lexeme.all source.toList)
        rw [Lexeme.flatMap_chars_all, hsplit, List.flatMap_append] at htext
        have hp : p = q := by
          cases l <;> cases hq
          rfl
        refine .inr ⟨_, _, htext.symm, ?_⟩
        rw [SourceError.location, hp, Lexeme.position_of_place hsplit, Position.advance_start]
      · cases ht

/-- Wherever the tree can be looked at is a place of the text. -/
def Node.PlacedIn (source : List Char) (n : Node) : Prop :=
  ∀ b ∈ n :: n.subtrees, ∀ l ∈ b.location, InText source l

theorem Node.PlacedIn.below {source : List Char} {n b : Node} (h : n.PlacedIn source)
    (hb : b ∈ n.subtrees) : b.PlacedIn source := by
  intro c hc
  rcases List.mem_cons.1 hc with rfl | hc
  · exact h c (List.mem_cons_of_mem _ hb)
  · exact h c (List.mem_cons_of_mem _ (subtrees_trans n hb hc))

theorem Node.placedIn_of_parse {source : String} {limit : Nat} {tree : Node}
    (h : parse source limit = .ok tree) : tree.PlacedIn source.toList := by
  intro b hb l hl
  have hlookup : ∃ name args, b.lookup? = some (name, args) := by
    cases b with
    | var name location => exact ⟨name, [], rfl⟩
    | call name args location => exact ⟨name, args, rfl⟩
    | _ => cases hl
  obtain ⟨name, args, hname⟩ := hlookup
  obtain ⟨l', hl', -, before, after, htext, hplace⟩ := standsAt_of_parse h hb hname
  have heq : l = l' := Option.some.inj (hl.symm.trans hl')
  exact ⟨before, name.toList ++ after, by rw [htext, List.append_assoc], heq.trans hplace⟩

/-- The same state, which has looked at a place of the text last. -/
def Machine.LooksIn (source : List Char) (m m' : Machine σ) : Prop :=
  m = m' ∧ ∀ l ∈ m.focus, InText source l

namespace Eval

theorem respects_of_focus {source : List Char} {c : Eval σ α}
    (h : ∀ m, (final c m).focus = m.focus) :
    Respects (Machine.LooksIn source) (fun _ => True) c := by
  rintro m _ ⟨rfl, hm⟩
  have hfocus := h m
  unfold final at hfocus
  cases hc : c m with
  | ok a last =>
      rw [hc] at hfocus
      exact .ok trivial ⟨rfl, by rwa [hfocus]⟩
  | error fault last =>
      rw [hc] at hfocus
      exact .error fault ⟨rfl, by rwa [hfocus]⟩

theorem steady_looksIn (source : List Char) :
    Steady (Machine.LooksIn source : Machine σ → Machine σ → Prop) (Node.PlacedIn source) where
  below := Node.PlacedIn.below
  host h := congrArg Machine.host h.1
  aside := by
    rintro g hg m _ ⟨rfl, hm⟩
    refine ⟨rfl, ?_⟩
    rw [(hg.keeps m).2]
    exact hm
  look := by
    rintro n hn m _ ⟨rfl, hm⟩
    exact .ok trivial ⟨rfl, hn n List.mem_cons_self⟩
  openScope parent := respects_of_focus fun m => by
    by_cases h : 0 ≤ parent ∧ parent < m.scopes.size
    · rw [final, openScope_of_valid h]
    · rw [final, openScope_of_invalid h]
  fetch _ _ scope := respects_of_focus fun m => by
    show (final (ofExcept (m.scopes.fetch scope _)) m).focus = m.focus
    cases m.scopes.fetch scope _ <;> rfl
  assign scope name value := respects_of_focus fun m => by
    rw [final, assign_eq]
    cases m.scopes.assign scope name value <;> rfl

end Eval

/-- What a failed run points at is a place of its text, unless a lambda of the host is placed
elsewhere. -/
theorem inText_of_report {host : Host σ} {given : Bindings} {source : String} {state : σ}
    {limit : Nat} {report : Report} {l : Location}
    (hhost : host.KeepsTo (Node.PlacedIn source.toList))
    (h : (run host given source state limit).result = .error (.report report))
    (hl : report.location = some l) : InText source.toList l := by
  obtain ⟨e, hparse, rfl⟩ | ⟨tree, fault, last, hparse, hlast, hreport, -⟩ :=
    run_report_cases h
  · rcases inText_of_parse_error hparse with hnone | ⟨before, after, htext, hplace⟩
    · simp only [Report.ofSourceError, hnone] at hl
      cases hl
    · simp only [Report.ofSourceError, hplace, Location.ofPosition, Option.some.injEq] at hl
      exact ⟨before, after, htext, hl.symm⟩
  · have hend := (Eval.steady_looksIn source.toList).respects_value hhost limit
      (Node.placedIn_of_parse hparse) 0 (.prepared host given source state) _
      ⟨rfl, fun l hl => by cases hl⟩
    rw [hlast] at hend
    cases hend with
    | error _ hlooks =>
        rw [(Report.of_ofFault hreport).2.1] at hl
        obtain ⟨l', hfocus, hpointed⟩ := Option.bind_eq_some_iff.1 hl
        obtain ⟨before, after, htext, hplace⟩ := hlooks.2 l' hfocus
        rw [hplace] at hpointed
        cases hpointed
        exact ⟨before, after, htext, rfl⟩

end Pseudocode
