/-
# What is written is read back

Every type of the domain has a form in JSON, and what is written in this form is read back
as it was, through the text: whatever characters occur in names and texts, whatever
integers occur, however references, lists and payloads contain each other, and in
whatever order the declarations of a schema are listed. The one limit is the depth to
which readers enter arrays and objects, and it is met exactly: a text that is nested more
deeply than the limit is not read at all.

Each type is treated in two halves. Its tree has no other numbers than integers, so the
line of the tree is read as the tree. And its tree decodes to what it was made of, at
every depth that reaches all of the tree.
-/

import ConceptExpansion.Proofs.NameMap
import ConceptExpansion.Proofs.Json.Lines
import ConceptExpansion.Proofs.Json.Nesting

namespace ConceptExpansion

open Json (Decodes Integral bind_if)

/-! ## Trees without decimals -/

namespace Json

@[simp]
theorem integral_text (s : String) : (text s).Integral := .string _

@[simp]
theorem integral_bool (b : Bool) : (bool b).Integral := .bool _

@[simp]
theorem integral_ofNat (n : Nat) : (ofNat n).Integral := .integer _ _

@[simp]
theorem integral_ofInt (i : Int) : (ofInt i).Integral := .integer _ _

@[simp]
theorem integral_array {items : List Json} :
    (array items).Integral ↔ ∀ item ∈ items, item.Integral :=
  ⟨fun h => by cases h; assumption, .array⟩

@[simp]
theorem integral_ofMembers {members : List (String × Json)} :
    (ofMembers members).Integral ↔ ∀ member ∈ members, member.2.Integral := by
  rw [ofMembers, ← List.forall_mem_map
    (f := fun member : String × Json => (some member.1, member.2))
    (P := fun member => member.2.Integral)]
  exact ⟨fun h => by cases h; assumption, .object⟩

@[simp]
theorem integral_ofList {α : Type} {item : α → Json} {items : List α} :
    (ofList item items).Integral ↔ ∀ a ∈ items, (item a).Integral := by
  rw [ofList, integral_array, List.forall_mem_map]

/-- A line of integers only is decoded exactly if the limit reaches all of its tree. -/
theorem Decodes.readAs?_line {α : Type} {decode : Nat → Json → Option α} {json : Json} {a : α}
    (hdecodes : Decodes decode json a) (hintegral : json.Integral) :
    readAs? decode json.line = some a ↔ json.nesting ≤ depthLimit := by
  rw [readAs?, hintegral.read?_line, Option.bind_some, hdecodes, Option.ite_none_right_eq_some]
  exact and_iff_left rfl

end Json

/-! ## Values and keys -/

namespace Value

/-- A value has the property if it passes from the fields of a reference to the reference
and from the items of a list to the list. -/
@[elab_as_elim]
theorem induction_parts {motive : Value → Prop} (null : motive .null)
    (bool : ∀ b, motive (.bool b)) (int : ∀ i, motive (.int i)) (string : ∀ s, motive (.string s))
    (ref : ∀ kind fields, (∀ value ∈ fields, motive value) → motive (.ref kind fields))
    (list : ∀ items, (∀ value ∈ items, motive value) → motive (.list items)) :
    ∀ value, motive value :=
  @Value.rec motive (fun values => ∀ value ∈ values, motive value) null bool int string ref list
    (fun _ h => absurd h List.not_mem_nil)
    (fun _ _ hvalue hrest => List.forall_mem_cons.2 ⟨hvalue, hrest⟩)

theorem toJsonAll_eq_map (values : List Value) : toJsonAll values = values.map toJson := by
  induction values with
  | nil => rfl
  | cons value values ih => rw [toJsonAll, ih, List.map_cons]

@[simp]
theorem integral_toJson (value : Value) : value.toJson.Integral := by
  induction value using induction_parts with
  | ref kind fields ih => simpa [toJson, toJsonAll_eq_map] using ih
  | list items ih => simpa [toJson, toJsonAll_eq_map] using ih
  | _ => simp [toJson]

variable {values : List Value}

theorem decodes_toJsonAll (h : ∀ value ∈ values, Decodes ofJson? value.toJson value) :
    Decodes listOfJson? (.array (toJsonAll values)) values := by
  intro depth
  cases depth with
  | zero => simp [listOfJson?]
  | succ depth =>
      have hall := Json.mapM_map fun value hvalue => h value hvalue depth
      simpa [listOfJson?, Json.items?, toJsonAll_eq_map] using hall

theorem decodes_toJson_key {key : Key}
    (h : ∀ value ∈ key.fields, Decodes ofJson? value.toJson value) :
    Decodes Key.ofJson? key.toJson key := by
  intro depth
  cases depth with
  | zero => simp [Key.ofJson?, Key.toJson]
  | succ depth =>
      have hrecord : key.toJson.record? ["kind", "fields"] =
          some [.text key.kind, .array (toJsonAll key.fields)] :=
        @Json.record?_ofMembers [("kind", _), ("fields", _)] (by simp)
      have hdecode : Key.ofJson? (depth + 1) key.toJson =
          (listOfJson? depth (.array (toJsonAll key.fields))).bind
            fun fields => some ⟨key.kind, fields⟩ := by
        rw [Key.ofJson?, hrecord]
        rfl
      rw [hdecode, decodes_toJsonAll h, bind_if]
      exact if_congr (by simp [Key.toJson]) rfl rfl

/-- An alternative takes one level of its own. -/
theorem decodes_alternative {name : String} {content : Json} {value : Value}
    (h : ∀ depth, ofJson? (depth + 1) (.ofMembers [(name, content)]) =
      if content.nesting ≤ depth then some value else none) :
    Decodes ofJson? (.ofMembers [(name, content)]) value := by
  intro depth
  cases depth with
  | zero =>
      rw [if_neg (by simp)]
      rfl
  | succ depth =>
      rw [h]
      exact if_congr (by simp) rfl rfl

/-- A value is decoded as it was. -/
theorem decodes_toJson (value : Value) : Decodes ofJson? value.toJson value := by
  induction value using induction_parts with
  | null =>
      intro depth
      cases depth <;> rfl
  | bool b =>
      refine decodes_alternative fun depth => ?_
      simp [ofJson?, Json.ofMembers, Json.alternative?, Json.bool?]
  | int i =>
      refine decodes_alternative fun depth => ?_
      simp [ofJson?, Json.ofMembers, Json.alternative?, Json.int64?_ofInt]
  | string s =>
      refine decodes_alternative fun depth => ?_
      simp [ofJson?, Json.ofMembers, Json.alternative?]
  | ref kind fields ih =>
      have hkey := @decodes_toJson_key ⟨kind, fields⟩ ih
      show Decodes ofJson? (.ofMembers [("Ref", (Key.mk kind fields).toJson)]) (ref kind fields)
      refine decodes_alternative fun depth => ?_
      simp [ofJson?, Json.ofMembers, Json.alternative?, hkey depth, bind_if]
  | list items ih =>
      refine decodes_alternative fun depth => ?_
      have hitems := decodes_toJsonAll ih depth
      simp [ofJson?, Json.ofMembers, Json.alternative?, hitems, bind_if]

end Value

theorem Key.decodes_toJson (key : Key) : Decodes ofJson? key.toJson key :=
  Value.decodes_toJson_key fun value _ => value.decodes_toJson

@[simp]
theorem Key.integral_toJson (key : Key) : key.toJson.Integral := by
  simp [toJson, Value.toJsonAll_eq_map]

/-! ## Maps -/

section Maps

variable {α : Type} {encode : α → Json} {decode : Nat → Json → Option α}

/-- A map is decoded if its values are, in whatever order its bindings are listed. There is
one binding of each name, so none is put in place of another. -/
theorem NameMap.decodes_ofMembers {map : NameMap α} {entries : List (String × α)}
    (hentries : entries.Perm map.entries) (h : ∀ value, Decodes decode (encode value) value) :
    Decodes (ofJson? decode)
      (.ofMembers (entries.map fun entry => (entry.1, encode entry.2))) map := by
  intro depth
  cases depth with
  | zero => simp [ofJson?]
  | succ depth =>
      have hentry : ∀ entry ∈ entries,
          (decode depth (encode entry.2)).map (fun value => (entry.1, value)) =
            if (encode entry.2).nesting ≤ depth then some entry else none := by
        intro entry _
        rw [h]
        split <;> rfl
      have hdecode := @Json.mapM_map _ _ _ (fun entry : String × α => (entry.1, encode entry.2))
        (fun member : String × Json => (decode depth member.2).map fun value => (member.1, value))
        id entries _ _ hentry
      rw [ofJson?, Json.members?_ofMembers]
      show Option.bind (List.mapM _ _) (fun entries => some (ofList entries)) = _
      rw [hdecode, bind_if, List.map_id, ofList_of_perm hentries]
      exact if_congr (by rw [Json.nesting_ofMembers_le, List.forall_mem_map]) rfl rfl

theorem Json.integral_ofMembers_map (entries : List (String × α))
    (h : ∀ value, (encode value).Integral) :
    (ofMembers (entries.map fun entry => (entry.1, encode entry.2))).Integral := by
  rw [integral_ofMembers, List.forall_mem_map]
  exact fun entry _ => h entry.2

end Maps

/-! ## Records -/

theorem Concept.decodes_toJson (concept : Concept) : Decodes ofJson? concept.toJson concept := by
  intro depth
  cases depth with
  | zero => simp [ofJson?, toJson]
  | succ depth =>
      have hrecord : concept.toJson.record? ["kind", "key", "payload"] =
          some [.text concept.kind, .array (Value.toJsonAll concept.fields),
            Attributes.toJson concept.payload] :=
        @Json.record?_ofMembers [("kind", _), ("key", _), ("payload", _)] (by simp)
      have hfields : Decodes _ _ concept.fields :=
        Value.decodes_toJsonAll fun value _ => value.decodes_toJson
      have hpayload : Decodes _ (Attributes.toJson concept.payload) _ :=
        NameMap.decodes_ofMembers (.refl _) Value.decodes_toJson
      have hdecode : ofJson? (depth + 1) concept.toJson =
          (Value.listOfJson? depth (.array (Value.toJsonAll concept.fields))).bind fun fields =>
            (NameMap.ofJson? Value.ofJson? depth (Attributes.toJson concept.payload)).bind
              fun payload => some ⟨concept.kind, fields, payload⟩ := by
        rw [ofJson?, hrecord]
        rfl
      rw [hdecode, hfields, bind_if, hpayload, bind_if, ← ite_and]
      exact if_congr (by simp [toJson]) rfl rfl

theorem Concept.integral_toJson (concept : Concept) : concept.toJson.Integral := by
  have hpayload : (Attributes.toJson concept.payload).Integral :=
    Json.integral_ofMembers_map _ Value.integral_toJson
  simp [toJson, Value.toJsonAll_eq_map, hpayload]

/-- An origin is decoded as it was, if the position of a seed is a machine word. -/
theorem Origin.decodes_toJson {origin : Origin}
    (h : ∀ position, origin = .seed position → position ≤ maxPosition) :
    Decodes ofJson? origin.toJson origin := by
  intro depth
  match origin, depth with
  | seed _, 0 | rule _ _, 0 | seed _, 1 | rule _ _, 1 => simp [ofJson?, toJson, Key.toJson]
  | seed position, depth + 2 =>
      have hrecord : (Json.ofMembers [("position", .ofNat position)]).record? ["position"] =
          some [.ofNat position] :=
        @Json.record?_ofMembers [("position", _)] (by simp)
      have hdecode : ofJson? (depth + 2) (seed position).toJson =
          ((Json.ofNat position).natUpTo? maxPosition).bind
            fun position => some (seed position) := by
        simp [toJson, ofJson?, Json.alternative?_ofMembers, hrecord]
      rw [hdecode, Json.natUpTo?_ofNat (h position rfl), if_pos (by simp [toJson])]
      rfl
  | rule name source, depth + 2 =>
      have hrecord : (Json.ofMembers [("rule", .text name), ("source", source.toJson)]).record?
          ["rule", "source"] = some [.text name, source.toJson] :=
        @Json.record?_ofMembers [("rule", _), ("source", _)] (by simp)
      have hdecode : ofJson? (depth + 2) (rule name source).toJson =
          (Key.ofJson? depth source.toJson).bind fun source => some (rule name source) := by
        simp [toJson, ofJson?, Json.alternative?_ofMembers, hrecord]
      rw [hdecode, source.decodes_toJson, bind_if]
      exact if_congr (by simp [toJson]) rfl rfl

theorem Origin.integral_toJson (origin : Origin) : origin.toJson.Integral := by
  cases origin <;> simp [toJson]

theorem KindDef.decodes_toJson (kind : KindDef) : Decodes ofJson? kind.toJson kind := by
  intro depth
  cases depth with
  | zero => simp [ofJson?, toJson]
  | succ depth =>
      have hrecord : kind.toJson.record? ["name", "key_fields", "cumulative", "sink"] =
          some [.text kind.name, .ofList .text kind.keyFields,
            .ofList .text kind.cumulative.names, .bool kind.sink] :=
        @Json.record?_ofMembers [("name", _), ("key_fields", _), ("cumulative", _), ("sink", _)]
          (by simp)
      have hkeyFields := Json.decodes_names kind.keyFields depth
      have hcumulative := Json.decodes_names kind.cumulative.names depth
      have hdecode : ofJson? (depth + 1) kind.toJson =
          ((Json.ofList .text kind.keyFields).names? depth).bind fun keyFields =>
            ((Json.ofList .text kind.cumulative.names).names? depth).bind fun cumulative =>
              some ⟨kind.name, keyFields, .ofNames cumulative, kind.sink⟩ := by
        rw [ofJson?, hrecord]
        rfl
      dsimp only at hkeyFields hcumulative
      rw [hdecode, hkeyFields, bind_if, hcumulative, bind_if, ← ite_and, NameSet.ofNames_names]
      exact if_congr (by simp [toJson]) rfl rfl

@[simp]
theorem KindDef.integral_toJson (kind : KindDef) : kind.toJson.Integral := by
  simp [toJson]

/-- A schema is decoded as it was, in whatever order its declarations are listed. -/
theorem Schema.decodes_toJsonListing {schema : Schema} {kinds : List (String × KindDef)}
    (h : kinds.Perm schema.kinds.entries) :
    Decodes ofJson? (toJsonListing kinds) schema := by
  intro depth
  cases depth with
  | zero => simp [ofJson?, toJsonListing]
  | succ depth =>
      have hrecord : (toJsonListing kinds).record? ["kinds"] =
          some [.ofMembers (kinds.map fun entry => (entry.1, entry.2.toJson))] :=
        @Json.record?_ofMembers [("kinds", _)] (by simp)
      have hkinds := NameMap.decodes_ofMembers h KindDef.decodes_toJson
      have hdecode : ofJson? (depth + 1) (toJsonListing kinds) =
          (NameMap.ofJson? KindDef.ofJson? depth
            (.ofMembers (kinds.map fun entry => (entry.1, entry.2.toJson)))).bind
              fun kinds => some ⟨kinds⟩ := by
        rw [ofJson?, hrecord]
        rfl
      rw [hdecode, hkinds, bind_if]
      exact if_congr (by simp [toJsonListing]) rfl rfl

theorem Schema.integral_toJsonListing (kinds : List (String × KindDef)) :
    (toJsonListing kinds).Integral := by
  have hkinds := Json.integral_ofMembers_map kinds KindDef.integral_toJson
  simp only [toJsonListing, Json.integral_ofMembers, List.forall_mem_singleton]
  exact Json.integral_ofMembers.1 hkinds

/-- An identifier is a bare number, which needs no depth. -/
theorem ConceptId.decodes_toJson (id : ConceptId) :
    Decodes (fun _ => ofJson?) id.toJson id := by
  intro depth
  have hindex : id.index ≤ Store.capacity - 1 := Nat.le_sub_one_of_lt id.index_lt
  show ((Json.ofNat id.index).natUpTo? (Store.capacity - 1)).bind ofIndex? = _
  rw [Json.natUpTo?_ofNat hindex, Option.bind_some, ofIndex?, dif_pos id.index_lt, toJson,
    Json.nesting_ofNat, if_pos depth.zero_le]

theorem ConceptId.integral_toJson (id : ConceptId) : id.toJson.Integral :=
  Json.integral_ofNat id.index

/-! ## Texts -/

/-- The names of a declaration are all that it is nested in. -/
theorem KindDef.nesting_toJson_le (kind : KindDef) : kind.toJson.nesting ≤ 2 := by
  simp [toJson, Json.ofList]

theorem Schema.nesting_toJsonListing_le (kinds : List (String × KindDef)) :
    (toJsonListing kinds).nesting ≤ 4 := by
  simp only [toJsonListing, Json.nesting_ofMembers_le, List.forall_mem_singleton,
    List.forall_mem_map]
  exact fun entry _ => entry.2.nesting_toJson_le

/-- **Round trip.** The text of a value, of a key, of a concept or of an origin is read back
as what was written, exactly if no more arrays and objects stand inside each other in it
than the limit allows. The texts of declarations, schemas and identifiers are never nested
so deeply, and are always read back, in whatever order the declarations of a schema are
listed. The position of a seed is a machine word. -/
theorem readAs_line_iff :
    (∀ value : Value, Json.readAs? Value.ofJson? value.toJson.line = some value ↔
      value.toJson.nesting ≤ Json.depthLimit) ∧
    (∀ key : Key, Json.readAs? Key.ofJson? key.toJson.line = some key ↔
      key.toJson.nesting ≤ Json.depthLimit) ∧
    (∀ concept : Concept, Json.readAs? Concept.ofJson? concept.toJson.line = some concept ↔
      concept.toJson.nesting ≤ Json.depthLimit) ∧
    (∀ origin : Origin,
      (∀ position, origin = .seed position → position ≤ Origin.maxPosition) →
      (Json.readAs? Origin.ofJson? origin.toJson.line = some origin ↔
        origin.toJson.nesting ≤ Json.depthLimit)) ∧
    (∀ kind : KindDef, Json.readAs? KindDef.ofJson? kind.toJson.line = some kind) ∧
    (∀ (schema : Schema) (kinds : List (String × KindDef)), kinds.Perm schema.kinds.entries →
      Json.readAs? Schema.ofJson? (Schema.toJsonListing kinds).line = some schema) ∧
    ∀ id : ConceptId, Json.readAs? (fun _ => ConceptId.ofJson?) id.toJson.line = some id := by
  refine ⟨fun value => ?_, fun key => ?_, fun concept => ?_, fun origin hposition => ?_,
    fun kind => ?_, fun schema kinds hkinds => ?_, fun id => ?_⟩
  · exact value.decodes_toJson.readAs?_line value.integral_toJson
  · exact key.decodes_toJson.readAs?_line key.integral_toJson
  · exact concept.decodes_toJson.readAs?_line concept.integral_toJson
  · exact (Origin.decodes_toJson hposition).readAs?_line origin.integral_toJson
  · exact (kind.decodes_toJson.readAs?_line kind.integral_toJson).2
      (kind.nesting_toJson_le.trans (by decide))
  · have hdecodes := Schema.decodes_toJsonListing hkinds
    exact (hdecodes.readAs?_line (Schema.integral_toJsonListing kinds)).2
      ((Schema.nesting_toJsonListing_le kinds).trans (by decide))
  · exact (id.decodes_toJson.readAs?_line id.integral_toJson).2
      (by rw [ConceptId.toJson, Json.nesting_ofNat]; exact Nat.zero_le _)

/-- A concept with escapes in its texts and in the name of an attribute, and with the
least integer and a reference in a list; the last position that a seed can have; and a
schema whose declarations are listed from the last name to the first. -/
theorem readAs_line_escaped :
    let concept : Concept := {
      kind := "Entity"
      fields := [.string "\"Größe\" \\ 😀", .null]
      payload := .ofList [("\t\n", .list [.string "\x01\x7f/", .int Int64.minValue,
        .ref "Entity" [.list [.bool true, .list []]]]), ("", .string "Null")] }
    let schema : Schema := .ofKinds [{ name := "Entity", keyFields := ["module", "name"] },
      { name := "DataType", keyFields := ["name"], sink := true },
      { name := "Log", keyFields := ["entity"], cumulative := .ofNames ["\"audited\""] }]
    concept.toJson.nesting = 11 ∧
      Json.readAs? Concept.ofJson? concept.toJson.line = some concept ∧
      (Origin.seed Origin.maxPosition).toJson.nesting = 2 ∧
      Json.readAs? Origin.ofJson? (Origin.seed Origin.maxPosition).toJson.line =
        some (.seed Origin.maxPosition) ∧
      schema.kinds.entries.reverse.map (·.1) = ["Log", "Entity", "DataType"] ∧
      Json.readAs? Schema.ofJson? (Schema.toJsonListing schema.kinds.entries.reverse).line =
        some schema := by
  refine ⟨by decide, (readAs_line_iff.2.2.1 _).2 (by decide), by decide, ?_, by decide, ?_⟩
  · refine (readAs_line_iff.2.2.2.1 _ ?_).2 (by decide)
    rintro position ⟨⟩
    exact le_rfl
  · exact readAs_line_iff.2.2.2.2.2.1 _ _ (List.reverse_perm _)

end ConceptExpansion
