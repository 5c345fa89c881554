import Pseudocode.Proofs.Displayable
import Pseudocode.Proofs.JsonSpelling

/-!
# Exported JSON

What is exported as JSON is a JSON text, and it stands for what was exported: the same lists,
the same characters of every text, integers for whole numbers, and the very number for any
other finite one. Numbers that are not finite are texts before anything is written.
-/
namespace Pseudocode

inductive Exports : Value → Datum → Prop
  | boolean (value : Bool) : Exports (.literal (.boolean value)) (.boolean value)
  | text (content : String) : Exports (.literal (.text content)) (.text content)
  | whole {x : Float} {n : Int} : Number.value? x = some (n : ℚ) →
      Exports (.literal (.number x)) (.integer n)
  | fraction {x : Float} {q : ℚ} : Number.value? x = some q → (∀ n : Int, q ≠ n) →
      Exports (.literal (.number x)) (.real x)
  | undefined {x : Float} : x.isNaN = true → Exports (.literal (.number x)) (.text "NaN")
  | infinite {x : Float} : x.isInf = true →
      Exports (.literal (.number x)) (.text (if Number.isNegative x then "-inf" else "inf"))
  | list (pairs : List (Value × Datum)) : (∀ p ∈ pairs, Exports p.1 p.2) →
      Exports (.list (pairs.map Prod.fst)) (.list (pairs.map Prod.snd))
  | derived {l : Literal} {d : Datum} (object : Foreign) : Exports (.literal l) d →
      Exports (.derived l object) d
  | derivedList {items : List Value} {d : Datum} (object : Foreign) : Exports (.list items) d →
      Exports (.derivedList items object) d

theorem exports_number (x : Float) :
    Exports (.literal (.number x)) (Literal.toDatum (.number x)) := by
  rw [Literal.toDatum]
  cases hint : Number.toInt? x with
  | some n => exact .whole (Number.toInt?_eq_some_iff.1 hint)
  | none =>
      dsimp only
      cases hnan : x.isNaN with
      | true =>
          rw [Bool.true_or, if_pos rfl, Number.text_of_isNaN hnan]
          exact .undefined hnan
      | false =>
          cases hinf : x.isInf with
          | true =>
              rw [Bool.or_true, if_pos rfl, Number.text_of_isInf hnan hinf]
              exact .infinite hinf
          | false =>
              obtain ⟨q, hq⟩ := Number.exists_value? (Bool.or_eq_false_iff.2 ⟨hnan, hinf⟩)
              refine .fraction hq fun n hn => ?_
              rw [hn, ← Number.toInt?_eq_some_iff, hint] at hq
              cases hq

/-- Each value stands beside the datum that it gives. -/
theorem exists_pairs_of_mapM {α β ε : Type} {f : α → Except ε β} {as : List α} {bs : List β}
    (h : as.mapM f = .ok bs) : ∃ pairs : List (α × β),
      pairs.map Prod.fst = as ∧ pairs.map Prod.snd = bs ∧ ∀ p ∈ pairs, f p.1 = .ok p.2 := by
  induction as generalizing bs with
  | nil =>
      cases h
      exact ⟨[], rfl, rfl, List.forall_mem_nil _⟩
  | cons a as ih =>
      rw [List.mapM_cons] at h
      cases hb : f a with
      | error e =>
          rw [hb] at h
          cases h
      | ok b =>
          cases hbs : as.mapM f with
          | error e =>
              rw [hb, hbs] at h
              cases h
          | ok rest =>
              rw [hb, hbs] at h
              cases h
              obtain ⟨pairs, rfl, rfl, hpairs⟩ := ih hbs
              exact ⟨(a, b) :: pairs, rfl, rfl, List.forall_mem_cons.2 ⟨hb, hpairs⟩⟩

theorem exports_literal (l : Literal) : Exports (.literal l) l.toDatum := by
  cases l with
  | number x => exact exports_number x
  | text content => exact .text content
  | boolean value => exact .boolean value

theorem exports_list {items : List Value} {d : Datum}
    (ih : ∀ v ∈ items, ∀ {d : Datum}, v.toDatum = .ok d → Exports v d)
    (h : (Value.list items).toDatum = .ok d) : Exports (.list items) d := by
  rw [Value.toDatum, Value.toData_eq_mapM] at h
  cases hmap : items.mapM Value.toDatum with
  | error fault =>
      rw [hmap] at h
      cases h
  | ok ds =>
      rw [hmap] at h
      cases h
      obtain ⟨pairs, rfl, rfl, hpairs⟩ := exists_pairs_of_mapM hmap
      exact .list pairs fun p hp => ih p.1 (List.mem_map_of_mem hp) (hpairs p hp)

theorem exports_of_toDatum {v : Value} {d : Datum} (h : v.toDatum = .ok d) : Exports v d := by
  induction v using Value.induct generalizing d with
  | leaf v hleaf =>
      cases v with
      | literal l =>
          cases h
          exact exports_literal l
      | derived l object =>
          cases h
          exact .derived object (exports_literal l)
      | list items | derivedList items object => exact absurd rfl hleaf
      | _ => cases h
  | lists items ih => exact exports_list ih h
  | derivedLists items object ih =>
      rw [Value.toDatum, ← Value.toDatum] at h
      exact .derivedList object (exports_list ih h)

theorem Exports.spells {v : Value} {d : Datum} (h : Exports v d) (style : Json.Style)
    (level : Nat) : Json.Spells (Json.write style level d) (.ofDatum d) := by
  induction h generalizing level with
  | boolean value =>
      rw [Json.write, Json.Item.ofDatum]
      cases value with
      | true => exact .word (by simp [Json.words])
      | false => exact .word (by simp [Json.words])
  | text | undefined | infinite =>
      rw [Json.write, Json.Item.ofDatum]
      exact .text (Json.quoted_quote _)
  | @whole _ n =>
      rw [Json.write, Json.Item.ofDatum]
      exact Json.spells_integer n
  | fraction hq hfraction =>
      have hzero := hfraction 0
      rw [Int.cast_zero] at hzero
      obtain ⟨sign, m, e, hm, hx⟩ := Number.exists_unpack hq hzero
      rw [Json.write, Json.Item.ofDatum]
      exact Json.spells_real hx
  | derived _ _ ih | derivedList _ _ ih => exact ih level
  | list pairs hpairs ih =>
      refine Json.spells_list fun d hd => ?_
      obtain ⟨p, hp, rfl⟩ := List.mem_map.1 hd
      exact ih p hp (level + 1)

theorem serialize_json {v : Value} {d : Datum} (h : v.toDatum = .ok d) (yaml : Datum → String)
    (pretty : Bool) : serialize yaml (some "json") pretty v =
      .ok (Json.text (if pretty then .indented 2 else .compact) d) := by
  have hformat : Format.ofName? "json" = some .json := by decide +kernel
  rw [serialize, h, Option.bind_some, hformat]
  rfl

/-- A value that can be exported is exported, on one line or on many. The text is a JSON text, it
stands for the data of the value and for nothing else, and it is read back as them. -/
theorem json_text_stands_for_value {v : Value} {d : Datum} (h : v.toDatum = .ok d)
    (yaml : Datum → String) (pretty : Bool) :
    Exports v d ∧ ∃ t : String, serialize yaml (some "json") pretty v = .ok t ∧
      (∀ i, Json.Document t.toList i ↔ i = .ofDatum d) ∧ Json.read? t = some (.ofDatum d) := by
  have hexports := exports_of_toDatum h
  refine ⟨hexports, _, serialize_json h yaml pretty, ?_⟩
  generalize (if pretty then Json.Style.indented 2 else .compact) = style
  have hdocument : Json.Document (Json.text style d).toList (.ofDatum d) := by
    rw [Json.text, String.toList_ofList]
    exact (hexports.spells style 0).document
  have hread := Json.read?_eq_some_iff.2 hdocument
  refine ⟨fun i => ?_, hread⟩
  rw [← Json.read?_eq_some_iff, hread, Option.some_inj, eq_comm]

theorem json_text_stands_for_value_nested :
    let v : Value := .list [.literal (.number (0.0 / 0.0)), .literal (.number (-1.0 / 0.0)),
      .list [.literal (.number (-1.5)), .list []], .literal (.text "\"\x07😀")]
    let d : Datum := .list [.text "NaN", .text "-inf", .list [.real (-1.5), .list []],
      .text "\"\x07😀"]
    let yaml : Datum → String := fun _ => ""
    v.toDatum = .ok d ∧ Exports v d ∧ ∃ t : String, serialize yaml (some "json") true v = .ok t ∧
      (∀ i, Json.Document t.toList i ↔ i = .ofDatum d) ∧
      Json.read? t = some (.array [.text "NaN", .text "-inf", .array [.real (-1.5), .array []],
        .text "\"\x07😀"]) := by
  intro v d yaml
  have hdata : v.toDatum = .ok d := rfl
  exact ⟨hdata, json_text_stands_for_value hdata yaml true⟩

end Pseudocode
