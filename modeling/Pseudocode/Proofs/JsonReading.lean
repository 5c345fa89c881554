import Pseudocode.Proofs.JsonAtoms

/-!
# Reading JSON

A text is read from the left, with one character of the rest telling what comes next. The
reader decides the grammar: it gives what a text stands for, and gives nothing for a text
that stands for nothing. So a text stands for one thing at most.
-/
namespace Pseudocode.Json

def skip (cs : List Char) : List Char := cs.dropWhile isSpace

def expect (sign : Char) : List Char → Option (List Char)
  | [] => none
  | c :: cs => if c = sign then some cs else none

section
variable {α β : Type}

/-- Entries with commas between them, up to the closing sign. -/
def readSeries (close : Char) (read : List Char → Option (α × List Char)) :
    Nat → List Char → Option (List α × List Char)
  | 0, _ => none
  | fuel + 1, cs => do
      let (x, rest) ← read cs
      match expect close rest with
      | some rest => return ([x], rest)
      | none =>
          let (xs, rest) ← readSeries close read fuel (← expect ',' rest)
          return (x :: xs, rest)

/-- Entries up to the closing sign, or none. -/
def readGroup (close : Char) (make : List α → Item) (read : List Char → Option (α × List Char))
    (fuel : Nat) (cs : List Char) : Option (Item × List Char) :=
  match expect close (skip cs) with
  | some rest => some (make [], rest)
  | none => (readSeries close read fuel cs).map fun r => (make r.1, r.2)

variable {close : Char} {read : List Char → Option (α × List Char)} {fuel : Nat}
  {rest : List Char} {chars : β → List Char} {value : β → α}

theorem expect_self (sign : Char) (cs : List Char) : expect sign (sign :: cs) = some cs :=
  if_pos rfl

theorem eq_of_expect {sign : Char} {cs : List Char} (h : expect sign cs = some rest) :
    cs = sign :: rest := by
  cases cs with
  | nil => cases h
  | cons c cs =>
      rw [expect] at h
      split at h
      · rename_i hc
        cases h
        rw [hc]
      · cases h

theorem series_cons {text : List Char} {texts : List (List Char)} (h : texts ≠ []) :
    series (text :: texts) = text ++ ',' :: series texts := by
  rw [series, List.intercalate_cons_of_ne_nil h, List.append_assoc]
  rfl

/-- Every entry of a series is read back when every entry is read back on its own. -/
theorem readSeries_append (hclose : close ≠ ',') {entries : List β} (hne : entries ≠ [])
    (hread : ∀ e ∈ entries, ∀ c ∈ [',', close], ∀ rest,
      read (chars e ++ c :: rest) = some (value e, c :: rest))
    (hfuel : entries.length ≤ fuel) :
    readSeries close read fuel (series (entries.map chars) ++ close :: rest) =
      some (entries.map value, rest) := by
  induction entries generalizing fuel with
  | nil => exact absurd rfl hne
  | cons e entries ih =>
      obtain ⟨fuel, rfl⟩ := Nat.exists_eq_succ_of_ne_zero (Nat.ne_zero_of_lt hfuel)
      obtain ⟨he, hentries⟩ := List.forall_mem_cons.1 hread
      cases entries with
      | nil =>
          have hone : series ([e].map chars) = chars e := List.intercalate_singleton
          rw [hone, readSeries, he close (by simp)]
          simp [expect_self]
      | cons e' entries =>
          have hcomma : expect close
              (',' :: (series ((e' :: entries).map chars) ++ close :: rest)) = none :=
            if_neg hclose.symm
          have htail : readSeries close read fuel _ = _ :=
            ih (by simp) hentries (Nat.le_of_succ_le_succ hfuel)
          rw [List.map_cons, series_cons (by simp), List.append_assoc, List.cons_append, readSeries,
            he ',' (by simp)]
          simp only [Option.bind_eq_bind, Option.bind_some, hcomma, expect_self, htail]
          rfl

theorem exists_of_readSeries {P : β → Prop}
    (hread : ∀ cs x rest, read cs = some (x, rest) →
      ∃ e, cs = chars e ++ rest ∧ value e = x ∧ P e)
    {cs : List Char} {xs : List α} (h : readSeries close read fuel cs = some (xs, rest)) :
    ∃ entries : List β, entries ≠ [] ∧ cs = series (entries.map chars) ++ close :: rest ∧
      entries.map value = xs ∧ ∀ e ∈ entries, P e := by
  induction fuel generalizing cs xs with
  | zero => cases h
  | succ fuel ih =>
      rw [readSeries] at h
      obtain ⟨⟨x, rest₁⟩, hx, h⟩ := Option.bind_eq_some_iff.1 h
      obtain ⟨e, rfl, rfl, he⟩ := hread _ _ _ hx
      cases hclose : expect close rest₁ with
      | some rest₂ =>
          simp only [hclose] at h
          cases h
          rw [eq_of_expect hclose]
          exact ⟨[e], by simp, by simp [series], rfl, by simpa using he⟩
      | none =>
          simp only [hclose, Option.bind_eq_bind] at h
          obtain ⟨rest₂, hcomma, h⟩ := Option.bind_eq_some_iff.1 h
          obtain ⟨⟨xs, rest₃⟩, hxs, h⟩ := Option.bind_eq_some_iff.1 h
          cases h
          obtain ⟨entries, hne, rfl, rfl, hentries⟩ := ih hxs
          refine ⟨e :: entries, by simp, ?_, rfl, List.forall_mem_cons.2 ⟨he, hentries⟩⟩
          rw [eq_of_expect hcomma, List.map_cons, series_cons (by simpa using hne)]
          simp

theorem length_le_series {texts : List (List Char)} {text : List Char} (h : text ∈ texts) :
    text.length ≤ (series texts).length := by
  induction texts with
  | nil => cases h
  | cons first texts ih =>
      cases texts with
      | nil =>
          rw [List.mem_singleton.1 h, series, List.intercalate_singleton]
      | cons second texts =>
          rw [series_cons (by simp), List.length_append, List.length_cons]
          rcases List.mem_cons.1 h with rfl | h
          · omega
          · have := ih h
            omega

theorem length_le_length_series (texts : List (List Char)) :
    texts.length ≤ (series texts).length + 1 := by
  induction texts with
  | nil => exact Nat.zero_le _
  | cons first texts ih =>
      cases texts with
      | nil => exact Nat.le_add_left _ _
      | cons second texts =>
          rw [series_cons (by simp)]
          simp only [List.length_cons, List.length_append] at ih ⊢
          omega

theorem readGroup_empty (make : List α → Item) (gap : Gap) (h : isSpace close = false) :
    readGroup close make read fuel (gap.chars ++ close :: rest) = some (make [], rest) := by
  have hskip : skip (gap.chars ++ close :: rest) = close :: rest := by
    rw [skip, List.dropWhile_append_of_pos gap.spaces, List.dropWhile_cons_of_neg (by simp [h])]
  rw [readGroup, hskip, expect_self]

theorem readGroup_append (make : List α → Item) (hclose : close ≠ ',') {entries : List β}
    (hne : entries ≠ [])
    (hfirst : ∀ e ∈ entries, ∀ rest, expect close (skip (chars e ++ rest)) = none)
    (hread : ∀ e ∈ entries, ∀ c ∈ [',', close], ∀ rest,
      read (chars e ++ c :: rest) = some (value e, c :: rest))
    (hfuel : entries.length ≤ fuel) :
    readGroup close make read fuel (series (entries.map chars) ++ close :: rest) =
      some (make (entries.map value), rest) := by
  have hnone : expect close (skip (series (entries.map chars) ++ close :: rest)) = none := by
    cases entries with
    | nil => exact absurd rfl hne
    | cons e entries =>
        cases entries with
        | nil =>
            have hone : series ([e].map chars) = chars e := List.intercalate_singleton
            rw [hone]
            exact hfirst e (by simp) _
        | cons e' entries =>
            rw [List.map_cons, series_cons (by simp), List.append_assoc]
            exact hfirst e (by simp) _
  rw [readGroup, hnone, readSeries_append hclose hne hread hfuel]
  rfl

end

def readPart (read : List Char → Option (Item × List Char)) (cs : List Char) :
    Option (Item × List Char) :=
  (read (skip cs)).map fun r => (r.1, skip r.2)

def readMember (read : List Char → Option (Item × List Char)) (cs : List Char) :
    Option ((String × Item) × List Char) := do
  let (name, cs) ← readText (← expect '"' (skip cs))
  let (i, cs) ← readPart read (← expect ':' (skip cs))
  return ((name, i), cs)

def readWord (cs : List Char) : Option (Item × List Char) :=
  words.findSome? fun w => if w.1 <+: cs then some (w.2, cs.drop w.1.length) else none

/-- The value that a text begins with, and what follows it. No text nests deeper than it is
long. -/
def readValue : Nat → List Char → Option (Item × List Char)
  | 0, _ => none
  | _ + 1, [] => none
  | fuel + 1, c :: cs =>
      if c = '"' then (readText cs).map fun r => (.text r.1, r.2)
      else if c = '[' then readGroup ']' .array (readPart (readValue fuel)) fuel cs
      else if c = '\x7b' then readGroup '\x7d' .object (readMember (readValue fuel)) fuel cs
      else (readWord (c :: cs)).or ((readNumeral (c :: cs)).map fun r => (r.1.item, r.2))

def read? (source : String) : Option Item := do
  let (i, rest) ← readPart (readValue source.toList.length) source.toList
  if rest = [] then some i else none

section
variable {rest : List Char}

/-- The value before the text ends there, and so does the gap behind it. -/
def Closed (rest : List Char) : Prop := ∀ c ∈ rest.head?, c ∈ [',', ']', '\x7d']

theorem closed_cons {c : Char} (h : c ∈ [',', ']', '\x7d']) : Closed (c :: rest) := by
  intro d hd
  rwa [← Option.some.inj hd]

theorem Closed.ended (h : Closed rest) : Ended rest := by
  intro c hc
  have hmem := h c hc
  simp only [List.mem_cons, List.not_mem_nil, or_false] at hmem
  rcases hmem with rfl | rfl | rfl <;> decide

theorem Closed.not_space (h : Closed rest) : ∀ c ∈ rest.head?, isSpace c = false := by
  intro c hc
  have hmem := h c hc
  simp only [List.mem_cons, List.not_mem_nil, or_false] at hmem
  rcases hmem with rfl | rfl | rfl <;> decide

theorem ended_gap (gap : Gap) (h : Ended rest) : Ended (gap.chars ++ rest) := by
  obtain ⟨chars, spaces⟩ := gap
  cases chars with
  | nil => exact h
  | cons c cs =>
      intro d hd
      obtain rfl : c = d := Option.some.inj hd
      have hspace := spaces c List.mem_cons_self
      simp only [isSpace, Bool.or_eq_true, decide_eq_true_eq] at hspace
      rcases hspace with ((rfl | rfl) | rfl) | rfl <;> decide

theorem skip_gap (gap : Gap) (h : ∀ c ∈ rest.head?, isSpace c = false) :
    skip (gap.chars ++ rest) = rest := by
  rw [skip, List.dropWhile_append_of_pos gap.spaces]
  cases rest with
  | nil => rfl
  | cons c cs => rw [List.dropWhile_cons_of_neg (by simp [h c rfl])]

/-- The gap that is skipped. -/
theorem exists_gap (cs : List Char) : ∃ gap : Gap, cs = gap.chars ++ skip cs :=
  ⟨⟨cs.takeWhile isSpace, fun _ => List.mem_takeWhile_imp⟩, List.takeWhile_append_dropWhile.symm⟩

theorem Numeral.exists_cons (n : Numeral) :
    ∃ c tail, n.chars = c :: tail ∧ (c = '-' ∨ c.isDigit = true) := by
  rw [Numeral.chars]
  split
  · exact ⟨_, _, rfl, .inl rfl⟩
  · obtain ⟨c, cs, hcs, hdigit⟩ := n.whole.exists_cons
    exact ⟨c, _, by rw [Numeral.unsigned, hcs, List.cons_append], .inr hdigit⟩

theorem ne_of_begins {c : Char} (h : c = '-' ∨ c.isDigit = true) (d : Char) (hd : d ≠ '-')
    (hdigit : d.isDigit = false) : c ≠ d := by
  rintro rfl
  rcases h with h | h
  · exact hd h
  · rw [hdigit] at h
    cases h

/-- The first character of a value is no space and closes nothing. -/
theorem Spells.exists_cons {cs : List Char} {i : Item} (h : Spells cs i) :
    ∃ c tail, cs = c :: tail ∧ isSpace c = false ∧ c ≠ ']' := by
  cases h with
  | word h =>
      simp only [words, List.mem_cons, List.not_mem_nil, or_false, Prod.mk.injEq] at h
      obtain ⟨rfl, -⟩ | ⟨rfl, -⟩ | ⟨rfl, -⟩ := h <;> exact ⟨_, _, rfl, by decide, by decide⟩
  | number n =>
      obtain ⟨c, tail, hcs, hc⟩ := n.exists_cons
      have hne := ne_of_begins hc
      refine ⟨c, tail, hcs, ?_, hne ']' (by decide) (by decide)⟩
      simp [isSpace, hne ' ' (by decide) (by decide), hne '\t' (by decide) (by decide),
        hne '\n' (by decide) (by decide), hne '\r' (by decide) (by decide)]
  | text h =>
      obtain ⟨-, -⟩ := h
      exact ⟨_, _, rfl, by decide, by decide⟩
  | emptyArray | array | emptyObject | object => exact ⟨_, _, rfl, by decide, by decide⟩

theorem head_not_space {cs : List Char} {i : Item} (h : Spells cs i) :
    ∀ c ∈ (cs ++ rest).head?, isSpace c = false := by
  obtain ⟨c, tail, rfl, hspace, -⟩ := h.exists_cons
  intro d hd
  obtain rfl : c = d := Option.some.inj hd
  exact hspace

/-- A reader gives what a text spells, whatever follows it. -/
def Rereads (read : List Char → Option (Item × List Char)) (cs : List Char) (i : Item) : Prop :=
  ∀ rest, Ended rest → read (cs ++ rest) = some (i, rest)

theorem readPart_append {read : List Char → Option (Item × List Char)} {p : Part}
    (hp : Spells p.written p.item) (hread : Rereads read p.written p.item) (hrest : Closed rest) :
    readPart read (p.chars ++ rest) = some (p.item, rest) := by
  rw [readPart, Part.chars, List.append_assoc, List.append_assoc,
    skip_gap p.before (head_not_space hp), hread _ (ended_gap p.after hrest.ended),
    Option.map_some, skip_gap p.after hrest.not_space]

theorem readWord_of_ne {c : Char} {cs : List Char} (hn : c ≠ 'n') (ht : c ≠ 't') (hf : c ≠ 'f') :
    readWord (c :: cs) = none := by
  simp [readWord, words, List.cons_prefix_cons, hn.symm, ht.symm, hf.symm]

theorem rereads_numeral (n : Numeral) (fuel : Nat) :
    Rereads (readValue (fuel + 1)) n.chars n.item := by
  intro rest hrest
  have hread := readNumeral_append n hrest
  obtain ⟨c, tail, hcs, hc⟩ := n.exists_cons
  have hne := ne_of_begins hc
  rw [hcs, List.cons_append] at hread ⊢
  rw [readValue, if_neg (hne '"' (by decide) (by decide)),
    if_neg (hne '[' (by decide) (by decide)), if_neg (hne '\x7b' (by decide) (by decide)),
    readWord_of_ne (hne 'n' (by decide) (by decide)) (hne 't' (by decide) (by decide))
      (hne 'f' (by decide) (by decide)), hread]
  rfl

theorem rereads_word {cs : List Char} {i : Item} (h : (cs, i) ∈ words) (fuel : Nat) :
    Rereads (readValue (fuel + 1)) cs i := by
  intro rest _
  simp only [words, List.mem_cons, List.not_mem_nil, or_false, Prod.mk.injEq] at h
  obtain ⟨rfl, rfl⟩ | ⟨rfl, rfl⟩ | ⟨rfl, rfl⟩ := h <;>
    simp [readValue, readWord, words, List.cons_prefix_cons]

theorem Spells.exists_succ {cs : List Char} {i : Item} (h : Spells cs i) {fuel : Nat}
    (hfuel : cs.length ≤ fuel) : ∃ k, fuel = k + 1 := by
  obtain ⟨c, tail, rfl, -⟩ := h.exists_cons
  exact Nat.exists_eq_succ_of_ne_zero (Nat.ne_zero_of_lt hfuel)

/-- What stands behind the gap before a name. -/
theorem skip_member {m : Member} {body : List Char} (h : m.written = '"' :: body)
    (rest : List Char) : skip (m.chars ++ rest) =
      '"' :: (body ++ (m.after.chars ++ ':' :: (m.part.chars ++ rest))) := by
  rw [Member.chars, h]
  simp only [List.append_assoc, List.cons_append]
  exact skip_gap m.before fun c hc => by rw [← Option.some.inj hc]; decide

theorem readMember_append {read : List Char → Option (Item × List Char)} {m : Member}
    (hm : Quoted m.written m.name) (hp : Spells m.part.written m.part.item)
    (hread : Rereads read m.part.written m.part.item) (hrest : Closed rest) :
    readMember read (m.chars ++ rest) = some (m.item, rest) := by
  obtain ⟨body, hwritten, hname⟩ := readText_append hm
  have hpart := readPart_append hp hread hrest
  have hcolon : skip (m.after.chars ++ ':' :: (m.part.chars ++ rest)) =
      ':' :: (m.part.chars ++ rest) :=
    skip_gap m.after fun c hc => by rw [← Option.some.inj hc]; decide
  simp only [readMember, skip_member hwritten, expect_self, hname, hcolon, hpart,
    Option.bind_eq_bind, Option.bind_some]
  rfl

/-- No entry of an array or object begins with the sign that closes it. -/
theorem expect_skip_part {p : Part} (hp : Spells p.written p.item) (rest : List Char) :
    expect ']' (skip (p.chars ++ rest)) = none := by
  have hskip : skip (p.chars ++ rest) = p.written ++ (p.after.chars ++ rest) := by
    rw [Part.chars, List.append_assoc, List.append_assoc, skip_gap p.before (head_not_space hp)]
  obtain ⟨c, tail, hcs, -, hc⟩ := hp.exists_cons
  rw [hskip, hcs]
  exact if_neg hc

theorem expect_skip_member {m : Member} (hm : Quoted m.written m.name) (rest : List Char) :
    expect '\x7d' (skip (m.chars ++ rest)) = none := by
  obtain ⟨body, hwritten, -⟩ := readText_append hm
  rw [skip_member hwritten]
  rfl

theorem length_written_le (p : Part) : p.written.length ≤ p.chars.length := by
  simp only [Part.chars, List.length_append]
  omega

theorem length_part_le (m : Member) : m.part.chars.length ≤ m.chars.length := by
  simp only [Member.chars, List.length_append, List.length_cons]
  omega

/-- The reader finds what a text spells. -/
theorem Spells.rereads {cs : List Char} {i : Item} (h : Spells cs i) {fuel : Nat}
    (hfuel : cs.length ≤ fuel) : Rereads (readValue fuel) cs i := by
  -- every value inside of another one is shorter, so less fuel is left and needed for it
  induction h generalizing fuel with
  | word h =>
      obtain ⟨k, rfl⟩ := (Spells.word h).exists_succ hfuel
      exact rereads_word h k
  | number n =>
      obtain ⟨k, rfl⟩ := (Spells.number n).exists_succ hfuel
      exact rereads_numeral n k
  | text h =>
      obtain ⟨k, rfl⟩ := (Spells.text h).exists_succ hfuel
      obtain ⟨body, rfl, hread⟩ := readText_append h
      intro rest _
      rw [List.cons_append, readValue, if_pos rfl, hread]
      rfl
  | emptyArray gap =>
      obtain ⟨k, rfl⟩ := (Spells.emptyArray gap).exists_succ hfuel
      intro rest _
      rw [List.append_assoc, List.cons_append, readValue, if_neg (by decide), if_pos rfl]
      exact readGroup_empty _ gap (by decide)
  | emptyObject gap =>
      obtain ⟨k, rfl⟩ := (Spells.emptyObject gap).exists_succ hfuel
      intro rest _
      rw [List.append_assoc, List.cons_append, readValue, if_neg (by decide), if_neg (by decide),
        if_pos rfl]
      exact readGroup_empty _ gap (by decide)
  | @array parts hne hparts ih =>
      obtain ⟨k, rfl⟩ := (Spells.array hne hparts).exists_succ hfuel
      have hk : (series (parts.map Part.chars)).length + 1 ≤ k := by simpa using hfuel
      intro rest _
      rw [List.append_assoc, List.cons_append, readValue, if_neg (by decide), if_pos rfl]
      refine readGroup_append _ (by decide) hne (fun p hp => expect_skip_part (hparts p hp))
        (fun p hp c hc rest => ?_) ?_
      · have hlength := length_le_series (List.mem_map_of_mem (f := Part.chars) hp)
        have hwritten := length_written_le p
        exact readPart_append (hparts p hp) (ih p hp (by omega))
          (closed_cons (List.mem_append_left ['\x7d'] hc))
      · have hlength := length_le_length_series (parts.map Part.chars)
        rw [List.length_map] at hlength
        omega
  | @object members hne hnames hparts ih =>
      obtain ⟨k, rfl⟩ := (Spells.object hne hnames hparts).exists_succ hfuel
      have hk : (series (members.map Member.chars)).length + 1 ≤ k := by simpa using hfuel
      intro rest _
      rw [List.append_assoc, List.cons_append, readValue, if_neg (by decide), if_neg (by decide),
        if_pos rfl]
      refine readGroup_append _ (by decide) hne (fun m hm => expect_skip_member (hnames m hm))
        (fun m hm c hc rest => ?_) ?_
      · have hlength := length_le_series (List.mem_map_of_mem (f := Member.chars) hm)
        have hpart := length_part_le m
        have hwritten := length_written_le m.part
        refine readMember_append (hnames m hm) (hparts m hm) (ih m hm (by omega)) (closed_cons ?_)
        simp only [List.mem_cons, List.not_mem_nil, or_false] at hc ⊢
        exact hc.imp_right .inr
      · have hlength := length_le_length_series (members.map Member.chars)
        rw [List.length_map] at hlength
        omega

/-- What the reader takes off the front of a text is a value. -/
def Sound (read : List Char → Option (Item × List Char)) : Prop :=
  ∀ cs i rest, read cs = some (i, rest) → ∃ text, cs = text ++ rest ∧ Spells text i

theorem exists_of_readPart {read : List Char → Option (Item × List Char)} (hread : Sound read)
    {cs : List Char} {i : Item} (h : readPart read cs = some (i, rest)) :
    ∃ p : Part, cs = p.chars ++ rest ∧ p.item = i ∧ Spells p.written p.item := by
  obtain ⟨⟨i, rest'⟩, hi, heq⟩ := Option.map_eq_some_iff.1 h
  cases heq
  obtain ⟨text, htext, hspells⟩ := hread _ _ _ hi
  obtain ⟨before, hbefore⟩ := exists_gap cs
  obtain ⟨after, hafter⟩ := exists_gap rest'
  refine ⟨⟨before, text, after, i⟩, ?_, rfl, hspells⟩
  rw [Part.chars, List.append_assoc, List.append_assoc, ← hafter, ← htext]
  exact hbefore

theorem exists_of_readMember {read : List Char → Option (Item × List Char)} (hread : Sound read)
    {cs : List Char} {member : String × Item} (h : readMember read cs = some (member, rest)) :
    ∃ m : Member, cs = m.chars ++ rest ∧ m.item = member ∧
      Quoted m.written m.name ∧ Spells m.part.written m.part.item := by
  simp only [readMember, Option.bind_eq_bind, Option.bind_eq_some_iff] at h
  obtain ⟨cs₁, hquote, ⟨name, cs₂⟩, hname, cs₃, hcolon, ⟨i, cs₄⟩, hpart, heq⟩ := h
  cases heq
  obtain ⟨body, hbody, hquoted⟩ := exists_of_readText hname
  obtain ⟨p, rfl, rfl, hspells⟩ := exists_of_readPart hread hpart
  obtain ⟨before, hbefore⟩ := exists_gap cs
  obtain ⟨after, hafter⟩ := exists_gap cs₂
  refine ⟨⟨before, '"' :: body, after, name, p⟩, ?_, rfl, hquoted, hspells⟩
  rw [hbefore, eq_of_expect hquote, hbody, hafter, eq_of_expect hcolon, Member.chars]
  simp

theorem exists_of_readWord {cs : List Char} {i : Item} (h : readWord cs = some (i, rest)) :
    ∃ text, cs = text ++ rest ∧ Spells text i := by
  obtain ⟨w, hw, h⟩ := List.exists_of_findSome?_eq_some h
  split at h
  · rename_i hprefix
    cases h
    exact ⟨w.1, (List.prefix_iff_eq_append.1 hprefix).symm, .word hw⟩
  · cases h

theorem exists_of_readGroup {α β : Type} {close : Char} {make : List α → Item}
    {read : List Char → Option (α × List Char)} {fuel : Nat} {chars : β → List Char}
    {value : β → α} {P : β → Prop}
    (hread : ∀ cs x rest, read cs = some (x, rest) →
      ∃ e, cs = chars e ++ rest ∧ value e = x ∧ P e)
    {cs : List Char} {i : Item} (h : readGroup close make read fuel cs = some (i, rest)) :
    (∃ gap : Gap, cs = gap.chars ++ close :: rest ∧ make [] = i) ∨
      ∃ entries : List β, entries ≠ [] ∧ cs = series (entries.map chars) ++ close :: rest ∧
        make (entries.map value) = i ∧ ∀ e ∈ entries, P e := by
  rw [readGroup] at h
  split at h
  · rename_i hclose
    cases h
    obtain ⟨gap, hgap⟩ := exists_gap cs
    rw [eq_of_expect hclose] at hgap
    exact .inl ⟨gap, hgap, rfl⟩
  · obtain ⟨⟨xs, rest'⟩, hxs, heq⟩ := Option.map_eq_some_iff.1 h
    cases heq
    obtain ⟨entries, hne, hcs, rfl, hentries⟩ := exists_of_readSeries hread hxs
    exact .inr ⟨entries, hne, hcs, rfl, hentries⟩

/-- What is read as a value is one. -/
theorem sound_readValue (fuel : Nat) : Sound (readValue fuel) := by
  induction fuel with
  | zero =>
      intro cs i rest h
      cases h
  | succ fuel ih =>
      intro cs i rest h
      cases cs with
      | nil => cases h
      | cons c cs =>
          rw [readValue] at h
          split at h
          · rename_i hc
            obtain ⟨⟨content, rest'⟩, hread, heq⟩ := Option.map_eq_some_iff.1 h
            cases heq
            obtain ⟨body, rfl, hquoted⟩ := exists_of_readText hread
            exact ⟨'"' :: body, by rw [hc]; rfl, .text hquoted⟩
          · split at h
            · rename_i hc
              obtain ⟨gap, rfl, rfl⟩ | ⟨parts, hne, rfl, rfl, hparts⟩ :=
                exists_of_readGroup (fun _ _ _ => exists_of_readPart ih) h
              · exact ⟨_, by simp [hc], .emptyArray gap⟩
              · exact ⟨_, by simp [hc], .array hne hparts⟩
            · split at h
              · rename_i hc
                obtain ⟨gap, rfl, rfl⟩ | ⟨members, hne, rfl, rfl, hmembers⟩ :=
                  exists_of_readGroup (fun _ _ _ => exists_of_readMember ih) h
                · exact ⟨_, by simp [hc], .emptyObject gap⟩
                · exact ⟨_, by simp [hc], .object hne (fun m hm => (hmembers m hm).1)
                    fun m hm => (hmembers m hm).2⟩
              · rcases Option.or_eq_some_iff.1 h with hword | ⟨-, hnumber⟩
                · exact exists_of_readWord hword
                · obtain ⟨⟨n, rest'⟩, hread, heq⟩ := Option.map_eq_some_iff.1 hnumber
                  cases heq
                  exact ⟨n.chars, eq_of_readNumeral hread, .number n⟩

end

/-- The reader decides the grammar. -/
theorem read?_eq_some_iff {source : String} {i : Item} :
    read? source = some i ↔ Document source.toList i := by
  constructor
  · intro h
    obtain ⟨⟨i, rest⟩, hread, h⟩ := Option.bind_eq_some_iff.1 h
    obtain ⟨p, hsource, rfl, hp⟩ := exists_of_readPart (sound_readValue _) hread
    dsimp only at h
    split at h
    · rename_i hrest
      cases h
      rw [hsource, hrest, List.append_nil]
      exact .intro p hp
    · cases h
  · intro h
    generalize hcs : source.toList = cs at h
    obtain ⟨p, hp⟩ := h
    have hclosed : Closed [] := by
      intro c hc
      cases hc
    have hread := readPart_append hp (hp.rereads (length_written_le p)) hclosed
    rw [List.append_nil] at hread
    rw [read?, hcs, hread]
    rfl

end Pseudocode.Json
