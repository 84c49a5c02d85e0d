import Mathlib
import ScoreSequencer.Settings
/-!
# Fields are read by themselves

A document gives a field by its name in a table or by its position in an array
(`Gives`). In a regular document every section is one of the two. Whatever library reads
it, as long as it is lawful, what is read for a field is then what the document gives for
it (`reading?_given`) or else its default (`reading?_missing`), whatever else the document
holds. The main theorem `parse_fields` says so of texts.
-/

namespace ScoreSequencer.Toml

/-! ## Entries -/

section OneEach

variable {α : Type} {entries : List (String × α)} {key : String} {a : α}

theorem mem_of_lookup (h : entries.lookup key = some a) : (key, a) ∈ entries := by
  obtain ⟨before, after, rfl, -⟩ := List.lookup_eq_some_iff.1 h
  simp

theorem not_mem_of_lookup (h : entries.lookup key = none) : key ∉ entries.map Prod.fst := by
  intro hmem
  obtain ⟨e, he, rfl⟩ := List.mem_map.1 hmem
  have hne := List.lookup_eq_none_iff.1 h e he
  simp at hne

theorem OneEach.lookup_eq_some (h : OneEach entries) : entries.lookup key = some a ↔ (key, a) ∈ entries := by
  refine ⟨mem_of_lookup, fun hmem => ?_⟩
  cases hlookup : entries.lookup key with
  | none => exact absurd (List.mem_map_of_mem hmem) (not_mem_of_lookup hlookup)
  | some b =>
    have hsame := List.inj_on_of_nodup_map h (mem_of_lookup hlookup) hmem rfl
    rw [(Prod.mk.inj hsame).2]

end OneEach

end ScoreSequencer.Toml

namespace ScoreSequencer.Settings

open Toml (OneEach)

/-- A document as it was read: its sections and other keys with their values. -/
abbrev Document := List (String × Toml.Value)

/-! ## Sections and fields -/

/-- The sections that have fields. -/
inductive Part where
  | timing
  | output
  | player

namespace Part

def name : Part → String
  | timing => "timing"
  | output => "output"
  | player => "player"

/-- The number of its fields. -/
def size : Part → Nat
  | timing => 3
  | output => 2
  | player => 1

theorem name_injective : Function.Injective name := by
  intro p q h
  cases p <;> cases q <;> first | rfl | simp [name] at h

end Part

/-- The fields a document can give. -/
inductive Known where
  | beatsPerMeasure
  | beatsPerNote
  | beatsPerMinute
  | channel
  | velocity
  | preDelay

namespace Known

def part : Known → Part
  | beatsPerMeasure | beatsPerNote | beatsPerMinute => .timing
  | channel | velocity => .output
  | preDelay => .player

def name : Known → String
  | beatsPerMeasure => "beats_per_measure"
  | beatsPerNote => "beats_per_note"
  | beatsPerMinute => "beats_per_minute"
  | channel => "channel"
  | velocity => "velocity"
  | preDelay => "pre_delay"

/-- The position in an array that gives the fields of the section in their order. -/
def position : Known → Nat
  | beatsPerMeasure | channel | preDelay => 0
  | beatsPerNote | velocity => 1
  | beatsPerMinute => 2

/-- The values the field takes: integers that fit a byte, or all numbers. -/
def Accepts : Known → Toml.Value → Prop
  | beatsPerMeasure, v | beatsPerNote, v | channel, v | velocity, v => ∃ n : Int, v = .integer n ∧ 0 ≤ n ∧ n ≤ 255
  | beatsPerMinute, v | preDelay, v => (∃ n, v = .integer n) ∨ ∃ x, v = .float x

/-- The default: a count or another number. -/
def fallback : Known → Nat ⊕ Binary64
  | beatsPerMeasure | beatsPerNote => .inl 4
  | beatsPerMinute => .inr (.ofDecimal false ⟨120, 0⟩)
  | channel => .inl 0
  | velocity => .inl 64
  | preDelay => .inr (.ofDecimal false ⟨5, -1⟩)

/-- What settings have in the field. -/
def get (s : Settings) : Known → Nat ⊕ Binary64
  | beatsPerMeasure => .inl s.beatsPerMeasure
  | beatsPerNote => .inl s.beatsPerNote
  | beatsPerMinute => .inr s.beatsPerMinute
  | channel => .inl s.channel
  | velocity => .inl s.velocity
  | preDelay => .inr s.preDelay

end Known

/-- The count or the number that a value stands for. An integer stands for the nearest number. -/
inductive Stands : Toml.Value → Nat ⊕ Binary64 → Prop
  | count (n : Nat) : Stands (.integer n) (.inl n)
  | number (x : Binary64) : Stands (.float x) (.inr x)
  | whole (n : Int) : Stands (.integer n) (.inr (.ofInt n))

/-! ## Documents -/

/-- A section gives a value for a field: in a table by its name, in an array by its position. -/
def Known.FoundIn (k : Known) (v : Toml.Value) : Toml.Value → Prop
  | .table entries => (k.name, v) ∈ entries
  | .array values => values[k.position]? = some v
  | _ => False

/-- The document gives a value for a field. -/
def Gives (document : Document) (k : Known) (v : Toml.Value) : Prop :=
  ∃ w, (k.part.name, w) ∈ document ∧ k.FoundIn v w

/-- A table, or an array of no more values than the section has fields. -/
def Part.Shaped (p : Part) : Toml.Value → Prop
  | .table _ => True
  | .array values => values.length ≤ p.size
  | _ => False

/-- Every section that is there is a table or an array that is not too long. -/
def Regular (document : Document) : Prop := ∀ p : Part, ∀ v, (p.name, v) ∈ document → p.Shaped v

/-- A change that no field is read from: another order of the document's keys or of a section's,
and one more key that is not the name of a section or, in a section, of a field there. -/
inductive Cosmetic : Document → Document → Prop
  | order {document document' : Document} : document.Perm document' → Cosmetic document document'
  | key {document : Document} (name : String) (v : Toml.Value) : (∀ p : Part, p.name ≠ name) →
      Cosmetic document ((name, v) :: document)
  | orderIn {document : Document} {p : Part} {entries entries' : List (String × Toml.Value)} : entries.Perm entries' →
      Cosmetic ((p.name, .table entries) :: document) ((p.name, .table entries') :: document)
  | keyIn {document : Document} {p : Part} {entries : List (String × Toml.Value)} (name : String) (v : Toml.Value) :
      (∀ k : Known, k.part = p → k.name ≠ name) →
      Cosmetic ((p.name, .table entries) :: document) ((p.name, .table ((name, v) :: entries)) :: document)

/-! ## Cosmetic changes -/

section Cosmetic

variable {document document' : Document} {name : String} {w v : Toml.Value} {k : Known}

theorem gives_cons : Gives ((name, w) :: document) k v ↔ k.part.name = name ∧ k.FoundIn v w ∨ Gives document k v := by
  simp [Gives, or_and_right, exists_or, and_assoc]

theorem regular_cons :
    Regular ((name, w) :: document) ↔ (∀ p : Part, p.name = name → p.Shaped w) ∧ Regular document := by
  simp [Regular, or_imp, forall_and]

theorem Cosmetic.gives (h : Cosmetic document document') : Gives document k v ↔ Gives document' k v := by
  cases h with
  | order hperm => simp only [Gives, hperm.mem_iff]
  | key _ _ hname => simp only [gives_cons, hname, false_and, false_or]
  | orderIn hperm => simp only [gives_cons, Known.FoundIn, hperm.mem_iff]
  | keyIn _ _ hname =>
    rw [gives_cons, gives_cons]
    refine or_congr_left (and_congr_right fun hpart => ?_)
    have hother := hname k (Part.name_injective hpart)
    simp only [Known.FoundIn, List.mem_cons, Prod.mk.injEq, hother, false_and, false_or]

theorem Cosmetic.regular (h : Cosmetic document document') : Regular document ↔ Regular document' := by
  cases h with
  | order hperm => simp only [Regular, hperm.mem_iff]
  | key _ _ hname => simp only [regular_cons, hname, false_imp_iff, implies_true, true_and]
  | orderIn hperm => simp only [regular_cons, Part.Shaped]
  | keyIn _ _ _ => simp only [regular_cons, Part.Shaped]

variable (h : Relation.EqvGen Cosmetic document document')
include h

theorem gives_of_cosmetic (k : Known) (v : Toml.Value) : Gives document k v ↔ Gives document' k v := by
  induction h with
  | rel _ _ hstep => exact hstep.gives
  | refl _ => exact .rfl
  | symm _ _ _ ih => exact ih.symm
  | trans _ _ _ _ _ ih ih' => exact ih.trans ih'

theorem regular_of_cosmetic : Regular document ↔ Regular document' := by
  induction h with
  | rel _ _ hstep => exact hstep.regular
  | refl _ => exact .rfl
  | symm _ _ _ ih => exact ih.symm
  | trans _ _ _ _ _ ih ih' => exact ih.trans ih'

end Cosmetic

/-! ## Reading a field -/

/-- A field whose values are seen as others. -/
def Field.map {α β : Type} (field : Field α) (f : α → β) : Field β :=
  ⟨field.name, f field.fallback, fun reader v => (field.read? reader v).map f⟩

theorem Field.get?_map {α β : Type} (reader : Toml.Reader) (field : Field α) (f : α → β)
    (given : String → Option Toml.Value) : (field.map f).get? reader given = (field.get? reader given).map f := by
  unfold Field.get? Field.map
  dsimp only
  cases given field.name <;> rfl

def Part.toSection : Part → Section
  | timing => .timing
  | output => .output
  | player => .player

/-- The six fields as one family. -/
def Known.field : Known → Field (Nat ⊕ Binary64)
  | beatsPerMeasure => Field.beatsPerMeasure.map .inl
  | beatsPerNote => Field.beatsPerNote.map .inl
  | beatsPerMinute => Field.beatsPerMinute.map .inr
  | channel => Field.channel.map .inl
  | velocity => Field.velocity.map .inl
  | preDelay => Field.preDelay.map .inr

/-- What is given for the fields of a section. -/
def Part.given? (reader : Toml.Reader) (document : Document) (p : Part) : Option (String → Option Toml.Value) :=
  reader.record? [Section.timing.name, Section.output.name, Section.player.name] (.table document) >>=
    p.toSection.read? reader

/-- What is read for the field. -/
def Known.reading? (reader : Toml.Reader) (document : Document) (k : Known) : Option (Nat ⊕ Binary64) :=
  k.part.given? reader document >>= k.field.get? reader

section Reading

variable {reader : Toml.Reader} {document document' : Document} {s : Settings} {k : Known} {v : Toml.Value}

theorem reading?_of_ofDocument? (h : ofDocument? reader document = some s) (k : Known) :
    k.reading? reader document = some (k.get s) := by
  obtain ⟨sections, hsections, h⟩ := Option.bind_eq_some_iff.1 h
  obtain ⟨timing, htiming, h⟩ := Option.bind_eq_some_iff.1 h
  obtain ⟨output, houtput, h⟩ := Option.bind_eq_some_iff.1 h
  obtain ⟨player, hplayer, h⟩ := Option.bind_eq_some_iff.1 h
  obtain ⟨beatsPerMeasure, hmeasure, h⟩ := Option.bind_eq_some_iff.1 h
  obtain ⟨beatsPerNote, hnote, h⟩ := Option.bind_eq_some_iff.1 h
  obtain ⟨beatsPerMinute, hminute, h⟩ := Option.bind_eq_some_iff.1 h
  obtain ⟨channel, hchannel, h⟩ := Option.bind_eq_some_iff.1 h
  obtain ⟨velocity, hvelocity, h⟩ := Option.bind_eq_some_iff.1 h
  obtain ⟨preDelay, hdelay, h⟩ := Option.bind_eq_some_iff.1 h
  obtain rfl := Option.some.inj h
  cases k <;>
    simp [Known.reading?, Part.given?, Known.field, Known.part, Part.toSection, Known.get, Field.get?_map, *]

theorem given?_of_reading? (h : (k.reading? reader document).isSome) :
    ∃ given, k.part.given? reader document = some given := by
  obtain ⟨a, ha⟩ := Option.isSome_iff_exists.1 h
  obtain ⟨given, hgiven, -⟩ := Option.bind_eq_some_iff.1 ha
  exact ⟨given, hgiven⟩

theorem exists_of_reading? (h : ∀ k : Known, (k.reading? reader document).isSome) :
    ∃ s, ofDocument? reader document = some s := by
  -- Each section is found because one of its fields is read.
  obtain ⟨timing, htiming⟩ := given?_of_reading? (h .beatsPerMeasure)
  obtain ⟨output, houtput⟩ := given?_of_reading? (h .channel)
  obtain ⟨player, hplayer⟩ := given?_of_reading? (h .preDelay)
  simp only [Known.part] at htiming houtput hplayer
  have hmeasure := h .beatsPerMeasure
  have hnote := h .beatsPerNote
  have hminute := h .beatsPerMinute
  have hchannel := h .channel
  have hvelocity := h .velocity
  have hdelay := h .preDelay
  simp only [Known.reading?, Known.field, Known.part, htiming, houtput, hplayer, Option.bind_eq_bind, Option.bind_some,
    Field.get?_map, Option.isSome_map, Option.isSome_iff_exists] at hmeasure hnote hminute hchannel hvelocity hdelay
  obtain ⟨beatsPerMeasure, hmeasure⟩ := hmeasure
  obtain ⟨beatsPerNote, hnote⟩ := hnote
  obtain ⟨beatsPerMinute, hminute⟩ := hminute
  obtain ⟨channel, hchannel⟩ := hchannel
  obtain ⟨velocity, hvelocity⟩ := hvelocity
  obtain ⟨preDelay, hdelay⟩ := hdelay
  refine ⟨⟨beatsPerMeasure, beatsPerNote, beatsPerMinute, channel, velocity, preDelay⟩, ?_⟩
  obtain ⟨sections, hsections, htiming⟩ := Option.bind_eq_some_iff.1 htiming
  simp only [Part.given?, hsections, Option.bind_eq_bind, Option.bind_some, Part.toSection] at htiming houtput hplayer
  simp [ofDocument?, *]

theorem Known.get_injective {s t : Settings} (h : ∀ k : Known, k.get s = k.get t) : s = t := by
  have hmeasure := Sum.inl.inj (h .beatsPerMeasure)
  have hnote := Sum.inl.inj (h .beatsPerNote)
  have hminute := Sum.inr.inj (h .beatsPerMinute)
  have hchannel := Sum.inl.inj (h .channel)
  have hvelocity := Sum.inl.inj (h .velocity)
  have hdelay := Sum.inr.inj (h .preDelay)
  cases s
  cases t
  simp_all

theorem ofDocument?_eq_some :
    ofDocument? reader document = some s ↔ ∀ k : Known, k.reading? reader document = some (k.get s) := by
  refine ⟨reading?_of_ofDocument?, fun h => ?_⟩
  obtain ⟨t, ht⟩ := exists_of_reading? fun k => by rw [h k]; rfl
  have hsame : s = t := Known.get_injective fun k => Option.some.inj ((h k).symm.trans (reading?_of_ofDocument? ht k))
  rw [hsame, ht]

/-! ## The values of a field -/

section Values

variable (lawful : reader.Lawful)
include lawful

theorem byte?_accepts : (∃ n, reader.byte? v = some n) ↔ ∃ n : Int, v = .integer n ∧ 0 ≤ n ∧ n ≤ 255 := by
  simp only [lawful.byte]
  constructor
  · rintro ⟨n, rfl, hn⟩
    exact ⟨n, rfl, by omega⟩
  · rintro ⟨n, rfl, hn⟩
    exact ⟨n.toNat, by congr; omega, by omega⟩

theorem number?_accepts : (∃ x, reader.number? v = some x) ↔ (∃ n, v = .integer n) ∨ ∃ x, v = .float x := by
  simp only [lawful.number]
  constructor
  · rintro ⟨x, rfl | ⟨n, rfl, -⟩⟩
    · exact .inr ⟨x, rfl⟩
    · exact .inl ⟨n, rfl⟩
  · rintro (⟨n, rfl⟩ | ⟨x, rfl⟩)
    · exact ⟨.ofInt n, .inr ⟨n, rfl, rfl⟩⟩
    · exact ⟨x, .inl rfl⟩

/-- A field takes the values it accepts, and nothing else. -/
theorem Known.read?_isSome : (k.field.read? reader v).isSome ↔ k.Accepts v := by
  cases k <;>
    simp only [field, Field.map, Field.beatsPerMeasure, Field.beatsPerNote, Field.beatsPerMinute, Field.channel,
      Field.velocity, Field.preDelay, Option.isSome_map, Option.isSome_iff_exists, byte?_accepts lawful,
      number?_accepts lawful, Accepts]

/-- What is read for a field is what the value stands for. -/
theorem Known.stands_of_read? (h : k.field.read? reader v = some (k.get s)) : Stands v (k.get s) := by
  cases k
  case beatsPerMinute | preDelay =>
    obtain ⟨x, hx, hsame⟩ := Option.map_eq_some_iff.1 h
    rw [← hsame]
    rcases lawful.number.1 hx with rfl | ⟨n, rfl, rfl⟩
    · exact .number x
    · exact .whole n
  all_goals
    obtain ⟨n, hn, hsame⟩ := Option.map_eq_some_iff.1 h
    obtain ⟨rfl, -⟩ := lawful.byte.1 hn
    rw [← hsame]
    exact .count n

end Values

theorem Known.field_fallback (k : Known) : k.field.fallback = k.fallback := by
  cases k <;> decide +kernel

theorem Known.field_name (k : Known) : k.field.name = k.name := by cases k <;> rfl

/-- The fields of a section have names of their own, and stand where an array gives them. -/
theorem Known.fields_nodup (k : Known) : k.part.toSection.fields.Nodup ∧
    k.part.toSection.fields.length = k.part.size ∧ k.part.toSection.fields[k.position]? = some k.name := by
  cases k <;> decide

/-! ## The sections of a regular document -/

/-- The one entry of a section in a document with one entry for each key. -/
theorem gives_of_mem (hkeys : OneEach document) {w : Toml.Value} (hw : (k.part.name, w) ∈ document) :
    Gives document k v ↔ k.FoundIn v w := by
  refine ⟨fun ⟨w', hw', hfound⟩ => ?_, fun hfound => ⟨w, hw, hfound⟩⟩
  have hsame := (hkeys.lookup_eq_some.2 hw).symm.trans (hkeys.lookup_eq_some.2 hw')
  rwa [Option.some.inj hsame]

section Regular

variable (lawful : reader.Lawful) (hkeyed : (Toml.Value.table document).Keyed) (hregular : Regular document)
include lawful hkeyed hregular

/-- What is found for the fields of a section is what the document gives for them. -/
theorem given?_eq_some (k : Known) : ∃ given, k.part.given? reader document = some given ∧
    ∀ v, given k.field.name = some v ↔ Gives document k v := by
  obtain ⟨hnodup, hlength, hposition⟩ := k.fields_nodup
  rw [k.field_name]
  cases hkeyed with
  | table hkeys hinner =>
    have hnames : [Section.timing.name, Section.output.name, Section.player.name].Nodup := by decide
    obtain ⟨sections, hsections, hlookup⟩ := lawful.record_table hnames hkeys
    have hsection : sections k.part.toSection.name = document.lookup k.part.name := by
      cases k <;> exact hlookup _ (by decide)
    rw [Part.given?, hsections, Option.bind_eq_bind, Option.bind_some, Section.read?, hsection]
    cases hfound : document.lookup k.part.name with
    | none =>
      refine ⟨_, rfl, fun v => ⟨nofun, fun ⟨w, hw, _⟩ => ?_⟩⟩
      exact absurd (List.mem_map_of_mem hw) (Toml.not_mem_of_lookup hfound)
    | some w =>
      have hw := Toml.mem_of_lookup hfound
      have hshaped := hregular k.part w hw
      simp only [gives_of_mem hkeys hw]
      cases w with
      | table entries =>
        cases hinner _ hw with
        | table hnames _ =>
          obtain ⟨given, hgiven, hnamed⟩ := lawful.record_table hnodup hnames
          refine ⟨given, hgiven, fun v => ?_⟩
          rw [hnamed _ (List.mem_of_getElem? hposition)]
          exact hnames.lookup_eq_some
      | array values =>
        obtain ⟨given, hgiven, hordered⟩ := lawful.record_array hnodup (hshaped.trans_eq hlength.symm)
        refine ⟨given, hgiven, fun v => ?_⟩
        rw [hordered _ _ hposition]
        exact .rfl
      | _ => exact hshaped.elim

/-! ## What is read of a regular document -/

theorem reading?_given (hgiven : Gives document k v) : k.reading? reader document = k.field.read? reader v := by
  obtain ⟨given, hs, hgives⟩ := given?_eq_some lawful hkeyed hregular k
  rw [Known.reading?, hs, Option.bind_eq_bind, Option.bind_some, Field.get?, (hgives v).2 hgiven]

theorem reading?_missing (hmissing : ∀ v, ¬ Gives document k v) : k.reading? reader document = some k.fallback := by
  obtain ⟨given, hs, hgives⟩ := given?_eq_some lawful hkeyed hregular k
  have hnone : given k.field.name = none := Option.eq_none_iff_forall_ne_some.2 fun v hv => hmissing v ((hgives v).1 hv)
  rw [Known.reading?, hs, Option.bind_eq_bind, Option.bind_some, Field.get?, hnone, Known.field_fallback]

/-- A reading fails exactly at a value that the field does not take. -/
theorem reading?_isSome : (k.reading? reader document).isSome ↔ ∀ v, Gives document k v → k.Accepts v := by
  by_cases hgiven : ∃ v, Gives document k v
  · obtain ⟨v, hv⟩ := hgiven
    rw [reading?_given lawful hkeyed hregular hv, Known.read?_isSome lawful]
    refine ⟨fun h w hw => ?_, fun h => h v hv⟩
    rw [← Known.read?_isSome lawful, ← reading?_given lawful hkeyed hregular hw, reading?_given lawful hkeyed hregular hv]
    exact (Known.read?_isSome lawful).2 h
  · have hmissing : ∀ v, ¬ Gives document k v := not_exists.1 hgiven
    rw [reading?_missing lawful hkeyed hregular hmissing]
    exact ⟨fun _ v hv => absurd hv (hmissing v), fun _ => rfl⟩

theorem ofDocument?_isSome :
    (ofDocument? reader document).isSome ↔ ∀ (k : Known) (v), Gives document k v → k.Accepts v := by
  simp only [← reading?_isSome lawful hkeyed hregular]
  constructor
  · intro h k
    obtain ⟨s, hs⟩ := Option.isSome_iff_exists.1 h
    rw [reading?_of_ofDocument? hs k]
    rfl
  · exact fun h => Option.isSome_iff_exists.2 (exists_of_reading? h)

/-- Documents that give the same values for a field are read alike there. -/
theorem reading?_congr (hkeyed' : (Toml.Value.table document').Keyed) (hregular' : Regular document')
    (hsame : ∀ v, Gives document k v ↔ Gives document' k v) :
    k.reading? reader document = k.reading? reader document' := by
  by_cases hgiven : ∃ v, Gives document k v
  · obtain ⟨v, hv⟩ := hgiven
    rw [reading?_given lawful hkeyed hregular hv, reading?_given lawful hkeyed' hregular' ((hsame v).1 hv)]
  · have hmissing : ∀ v, ¬ Gives document k v := not_exists.1 hgiven
    rw [reading?_missing lawful hkeyed hregular hmissing,
      reading?_missing lawful hkeyed' hregular' fun v hv => hmissing v ((hsame v).2 hv)]

theorem ofDocument?_congr (hkeyed' : (Toml.Value.table document').Keyed) (hregular' : Regular document')
    (hsame : ∀ (k : Known) (v), Gives document k v ↔ Gives document' k v) :
    ofDocument? reader document = ofDocument? reader document' := by
  refine Option.ext fun s => ?_
  simp only [ofDocument?_eq_some, reading?_congr lawful hkeyed hregular hkeyed' hregular' (hsame _)]

end Regular

end Reading

/-! ## Main theorem -/

section Texts

variable {reader : Toml.Reader} {text : String} {document : Document}

theorem parse?_eq_ofDocument? (hparse : reader.document? text = some document) :
    parse? reader text = ofDocument? reader document := by
  rw [parse?, hparse, Option.bind_eq_bind, Option.bind_some]

/-- A text whose document is regular gives settings exactly if every field that is given has a
value the field takes. Each field is then the value given, or its default if none is given. Nothing
else in the document matters: texts that give the same for every field are read alike, as are those
whose documents differ in cosmetic changes only, and texts that give the same for one field agree
in that field. -/
theorem parse_fields (lawful : reader.Lawful) (hparse : reader.document? text = some document)
    (hregular : Regular document) :
    ((parse? reader text).isSome ↔ ∀ (k : Known) (v), Gives document k v → k.Accepts v) ∧
    (∀ s, parse? reader text = some s → ∀ k : Known, (∀ v, Gives document k v → Stands v (k.get s)) ∧
      ((∀ v, ¬ Gives document k v) → k.get s = k.fallback)) ∧
    ∀ text' document', reader.document? text' = some document' →
      (Relation.EqvGen Cosmetic document document' → parse? reader text = parse? reader text') ∧
      (Regular document' →
        ((∀ (k : Known) (v), Gives document k v ↔ Gives document' k v) → parse? reader text = parse? reader text') ∧
        ∀ s s', parse? reader text = some s → parse? reader text' = some s' →
          ∀ k : Known, (∀ v, Gives document k v ↔ Gives document' k v) → k.get s = k.get s') := by
  have hkeyed := lawful.keyed hparse
  rw [parse?_eq_ofDocument? hparse]
  refine ⟨ofDocument?_isSome lawful hkeyed hregular, fun s hs k => ⟨fun v hv => ?_, fun hmissing => ?_⟩, ?_⟩
  · refine Known.stands_of_read? lawful ?_
    rw [← reading?_given lawful hkeyed hregular hv]
    exact reading?_of_ofDocument? hs k
  · have hread := reading?_of_ofDocument? hs k
    rw [reading?_missing lawful hkeyed hregular hmissing] at hread
    exact (Option.some.inj hread).symm
  · intro text' document' hparse'
    have hkeyed' := lawful.keyed hparse'
    rw [parse?_eq_ofDocument? hparse']
    refine ⟨fun hcosmetic => ?_, fun hregular' => ⟨ofDocument?_congr lawful hkeyed hregular hkeyed' hregular', ?_⟩⟩
    · have hregular' := (regular_of_cosmetic hcosmetic).1 hregular
      exact ofDocument?_congr lawful hkeyed hregular hkeyed' hregular' (gives_of_cosmetic hcosmetic)
    · intro s s' hs hs' k hsame
      have hread := reading?_congr lawful hkeyed hregular hkeyed' hregular' hsame
      rw [reading?_of_ofDocument? hs k, reading?_of_ofDocument? hs' k] at hread
      exact Option.some.inj hread

end Texts

/-! ## A library of known texts -/

/-- A library that can read the texts of a list, whose documents are known. -/
def knowing (texts : List (String × Document)) : Toml.Reader where
  document? text := texts.lookup text
  record? names
    | .table entries => some fun name => entries.lookup name
    | .array items => if items.length ≤ names.length then some fun name => items[names.idxOf name]? else none
    | _ => none
  byte?
    | .integer n => if 0 ≤ n ∧ n ≤ 255 then some n.toNat else none
    | _ => none
  number?
    | .float x => some x
    | .integer n => some (.ofInt n)
    | _ => none

theorem knowing_lawful {texts : List (String × Document)} (hkeyed : ∀ e ∈ texts, (Toml.Value.table e.2).Keyed) :
    (knowing texts).Lawful where
  keyed h := hkeyed _ (Toml.mem_of_lookup h)
  record_table _ _ := ⟨_, rfl, fun _ _ => rfl⟩
  record_array hnodup hlength := by
    refine ⟨_, if_pos hlength, fun i name hname => ?_⟩
    obtain ⟨hi, rfl⟩ := List.getElem?_eq_some_iff.1 hname
    rw [hnodup.idxOf_getElem i hi]
  byte {v n} := by
    cases v with
    | integer m =>
      show (if 0 ≤ m ∧ m ≤ 255 then some m.toNat else none) = some n ↔ _
      rw [Option.ite_none_right_eq_some, Option.some.injEq, Toml.Value.integer.injEq]
      omega
    | _ => exact iff_of_false nofun (by simp)
  number {v x} := by
    cases v with
    | float y => simp [knowing]
    | integer m => simp [knowing, eq_comm]
    | _ => exact iff_of_false nofun (by simp)

/-- A text with two of the sections. -/
def partialText : String := "[timing]\nbeats_per_measure = 3\nbeats_per_minute = 90\n\n[output]\nchannel = 9\n"

def partialDocument : Document := [
  ("timing", .table [("beats_per_measure", .integer 3), ("beats_per_minute", .integer 90)]),
  ("output", .table [("channel", .integer 9)])]

/-- The same fields in another order and among other keys. -/
def shuffledText : String :=
  "title = 'Etude'\n[output]\nloud = true\nchannel = 9\n[timing]\nbeats_per_minute = 90\nbeats_per_measure = 3\n"

def shuffledDocument : Document := [
  ("title", .string "Etude"), ("output", .table [("loud", .boolean true), ("channel", .integer 9)]),
  ("timing", .table [("beats_per_minute", .integer 90), ("beats_per_measure", .integer 3)])]

theorem regular_partialDocument : Regular partialDocument := by
  intro p v hv
  simp only [partialDocument, List.mem_cons, Prod.mk.injEq, List.not_mem_nil, or_false] at hv
  rcases hv with ⟨-, rfl⟩ | ⟨-, rfl⟩
  · trivial
  · trivial

theorem partial_shuffled : Relation.EqvGen Cosmetic partialDocument shuffledDocument := by
  refine .trans _ _ _ (.rel _ _ (.orderIn (p := .timing) (List.Perm.swap _ _ _))) ?_
  refine .trans _ _ _ (.rel _ _ (.order (List.Perm.swap _ _ _))) ?_
  refine .trans _ _ _ (.rel _ _ (.keyIn (p := .output) "loud" (.boolean true) fun k hk => ?_)) ?_
  · cases k <;> simp [Known.part, Known.name] at hk ⊢
  · exact .rel _ _ (.key "title" (.string "Etude") fun p => by cases p <;> decide)

/-- A library that knows both. -/
def shuffledReader : Toml.Reader := knowing [(partialText, partialDocument), (shuffledText, shuffledDocument)]

theorem keyed_partialDocument : (Toml.Value.table partialDocument).Keyed := by
  refine .table (by decide) (List.forall_mem_cons.2 ⟨.table (by decide) ?_, ?_⟩)
  · exact List.forall_mem_cons.2 ⟨.integer 3, List.forall_mem_singleton.2 (.integer 90)⟩
  · exact List.forall_mem_singleton.2 (.table (by decide) (List.forall_mem_singleton.2 (.integer 9)))

theorem keyed_shuffledDocument : (Toml.Value.table shuffledDocument).Keyed := by
  refine .table (by decide) (List.forall_mem_cons.2 ⟨.string _, ?_⟩)
  refine List.forall_mem_cons.2 ⟨.table (by decide) ?_, List.forall_mem_singleton.2 (.table (by decide) ?_)⟩
  · exact List.forall_mem_cons.2 ⟨.boolean true, List.forall_mem_singleton.2 (.integer 9)⟩
  · exact List.forall_mem_cons.2 ⟨.integer 90, List.forall_mem_singleton.2 (.integer 3)⟩

theorem shuffledReader_lawful : shuffledReader.Lawful :=
  knowing_lawful (List.forall_mem_cons.2 ⟨keyed_partialDocument, List.forall_mem_singleton.2 keyed_shuffledDocument⟩)

theorem parse_fields_shuffled :
    shuffledReader.Lawful ∧ shuffledReader.document? partialText = some partialDocument ∧ Regular partialDocument ∧
    shuffledReader.document? shuffledText = some shuffledDocument ∧
    Relation.EqvGen Cosmetic partialDocument shuffledDocument ∧
    parse? shuffledReader partialText = some ⟨3, 4, .ofInt 90, 9, 64, .ofDecimal false ⟨5, -1⟩⟩ ∧
    parse? shuffledReader shuffledText = parse? shuffledReader partialText := by
  have hpartial : shuffledReader.document? partialText = some partialDocument := rfl
  have hshuffled : shuffledReader.document? shuffledText = some shuffledDocument := rfl
  have h := parse_fields shuffledReader_lawful hpartial regular_partialDocument
  have hsame := (h.2.2 shuffledText shuffledDocument hshuffled).1 partial_shuffled
  exact ⟨shuffledReader_lawful, hpartial, regular_partialDocument, hshuffled, partial_shuffled, by decide +kernel,
    hsame.symm⟩

end ScoreSequencer.Settings
