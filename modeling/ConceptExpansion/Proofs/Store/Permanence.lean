/-
# What is stored stays

Admission is the only way to write to a store, and there is little that it writes. A
concept that is refused, or that adds nothing, leaves the store as it was. A new one is
put at the end, and nothing in front of it is touched. A concept whose key is stored
adds to the cumulative attributes of the one entry with that key, and to nothing else.

So whatever is offered to a store later, its entries keep their places, their keys,
their origins and their other attributes, the cumulative ones only gain items, and a
reference that leads somewhere goes on doing so.

For the same reason a thing needs to be said only once. Once a concept has been taken
in, the store is never again without what the concept says, and offering it again is
answered with the identifier that it was given the first time. What is stored may by
then be quite another description: the attributes are written as sets, and others may
have added to them.
-/

import ConceptExpansion.Proofs.Store.History
import ConceptExpansion.Proofs.Store.Resolution

namespace ConceptExpansion

/-- The entry `later` is what has become of the entry: it has the same identifier, key
and origin, its concept has the same key fields and the same attributes apart from the
cumulative ones, and each of these still has the items that it had. -/
structure Entry.Keeps (schema : Schema) (entry later : Entry) : Prop where
  id : later.id = entry.id
  key : later.key = entry.key
  origin : later.origin = entry.origin
  fields : later.concept.key = entry.concept.key
  plain : ∀ name, schema.isCumulative entry.concept.kind name = false →
    later.concept.attribute? name = entry.concept.attribute? name
  items : ∀ name value, schema.isCumulative entry.concept.kind name = true →
    entry.concept.attribute? name = some value →
      ∃ items items', value = .list items ∧
        later.concept.attribute? name = some (.list items') ∧ items ⊆ items'

namespace Store

variable {store next later : Store} {concept : Concept} {origin : Origin}
  {admission : Admission}

/-! ## What an offer does -/

/-- What an offer does to a store, by what it is answered. -/
inductive Effect (store : Store) (concept : Concept) (origin : Origin) :
    Except StoreError Admission → Store → Prop
  /-- The concept is refused, and nothing has changed. -/
  | refused (error : StoreError) : Effect store concept origin (.error error) store
  /-- The entry with the key says all that the concept says, and nothing has changed. -/
  | alreadyPresent {entry : Entry} (hfind : store.find? concept.key = some entry)
      (hwithin : store.schema.Within concept entry.concept) :
      Effect store concept origin (.ok (.alreadyPresent entry.id)) store
  /-- The key is new, and one entry with the next identifier stands at the end. -/
  | admitted {entry : Entry} {next : Store} (hfresh : store.find? concept.key = none)
      (hschema : next.schema = store.schema)
      (hentries : next.entries = store.entries.push entry)
      (hindex : entry.id.index = store.size) (hkey : entry.key = concept.key)
      (horigin : entry.origin = origin)
      (hwithin : store.schema.Within concept entry.concept) :
      Effect store concept origin (.ok (.admitted entry.id)) next
  /-- The entry with the key has become another one, which keeps what it had and says all
  that the concept says, and nothing else has changed. -/
  | merged {entry later : Entry} (hfind : store.find? concept.key = some entry)
      (hkeeps : entry.Keeps store.schema later) (hchanged : later ≠ entry)
      (hwithin : store.schema.Within concept later.concept) :
      Effect store concept origin (.ok (.merged entry.id))
        { store with entries := store.entries.setIfInBounds entry.id.index later }

/-- An entry of a store that has grown keeps what it had. -/
theorem Grows.keeps (hgrows : store.Grows later) (hstore : store.WellFormed)
    (hlater : later.WellFormed) {id : ConceptId} {entry : Entry}
    (hget : store.get? id = some entry) :
    ∃ kept, later.get? id = some kept ∧ entry.Keeps store.schema kept := by
  obtain ⟨kept, hkept, hkey, horigin, hwithin⟩ := hgrows.entry hget
  refine ⟨kept, hkept, ?_⟩
  exact
    { id := (hlater.id_of_get? hkept).trans (hstore.id_of_get? hget).symm
      key := hkey
      origin := horigin
      fields := hwithin.key.symm
      plain := fun name hname => (hwithin.plain name hname).symm
      items := by
        intro name value hname hvalue
        obtain ⟨items, rfl, -⟩ := hstore.isSet_of_cumulative hget hname hvalue
        obtain ⟨value', hvalue'⟩ := Option.isSome_iff_exists.1
          (hwithin.present name hname (by simp [hvalue]))
        have hname' : later.schema.isCumulative kept.concept.kind name = true := by
          rwa [hgrows.schema, ← hwithin.kind]
        obtain ⟨items', rfl, -⟩ := hlater.isSet_of_cumulative hkept hname' hvalue'
        refine ⟨items, items', rfl, hvalue', fun x hx => ?_⟩
        have hitem := hwithin.items name hname x
        simp only [hvalue, hvalue', Value.contributed_some] at hitem
        exact hitem hx }

/-- To write a payload is to put another entry in the place of a stored one. -/
theorem setPayload_eq {entry : Entry} (hget : store.get? entry.id = some entry)
    (payload : Attributes) :
    store.setPayload entry.id payload =
      { store with
        entries := store.entries.setIfInBounds entry.id.index
          { entry with concept := entry.concept.setPayload payload } } := by
  have hentry : store.entries[entry.id.index]? = some entry := hget
  have hbound : entry.id.index < store.entries.size := (Array.getElem?_eq_some_iff.1 hentry).1
  unfold setPayload
  congr 1
  apply Array.ext_getElem?
  intro index
  rw [Array.getElem?_modify, Array.getElem?_setIfInBounds]
  by_cases hindex : entry.id.index = index
  · subst hindex
    rw [if_pos rfl, if_pos rfl, if_pos hbound, hentry]
    rfl
  · rw [if_neg hindex, if_neg hindex]

theorem effect_push (entry : Entry) (hfresh : store.find? concept.key = none)
    (hindex : entry.id.index = store.size) (hkey : entry.key = concept.key)
    (hwithin : store.schema.Within concept entry.concept) :
    store.Effect concept entry.origin (.ok (.admitted entry.id)) (store.push entry) :=
  .admitted hfresh rfl rfl hindex hkey rfl hwithin

/-- A concept that is taken in has one of the effects. -/
theorem WellFormed.effect_of_insert (hstore : store.WellFormed)
    (h : store.insert concept origin = .ok (admission, next)) :
    store.Effect concept origin (.ok admission) next := by
  obtain ⟨said, hsaid, hwithin⟩ := hstore.represents_of_insert h
  obtain ⟨kind, hvalid, -, hinsertion⟩ := insert_eq_ok_iff.1 h
  cases hinsertion with
  | @admitted id hid hnew =>
      exact effect_push ⟨id, concept.key, _, origin⟩ hnew (index_of_ofIndex? hid) rfl
        (Schema.within_normalize hvalid)
  | alreadyPresent hfind =>
      obtain rfl := Option.some.inj (hfind.symm.trans hsaid)
      exact .alreadyPresent hfind hwithin
  | @merged entry hfind hagree hgrown =>
      have hget := (hstore.find?_eq_some_iff.1 hfind).1
      obtain ⟨kept, hkept, hkeeps⟩ :=
        (hstore.grows_insert h).keeps hstore (hstore.insert h) hget
      rw [get?_setPayload, if_pos rfl, hget, Option.map_some, Option.some.injEq] at hkept
      subst hkept
      rw [hstore.find?_setPayload_self hfind, Option.some.injEq] at hsaid
      subst hsaid
      rw [setPayload_eq hget]
      refine .merged hfind hkeeps (fun hsame => hgrown ?_) hwithin
      exact congrArg (fun entry : Entry => entry.concept.payload) hsame

/-- Every offer is answered, and the store is what the answer says. -/
theorem WellFormed.exists_effect (hstore : store.WellFormed) (concept : Concept)
    (origin : Origin) :
    ∃ answer next, store.insertAll [(concept, origin)] = ([answer], next) ∧
      store.Effect concept origin answer next := by
  cases hinsert : store.insert concept origin with
  | error error =>
      exact ⟨.error error, store, insertAll_cons_of_error hinsert [], .refused error⟩
  | ok answer =>
      exact ⟨.ok answer.1, answer.2, insertAll_cons_of_ok hinsert [],
        hstore.effect_of_insert hinsert⟩

/-! ## What all later offers leave alone -/

/-- What the store has is still there later: every entry in its place, with what it
had, and every reference that leads somewhere. -/
structure Retained (store later : Store) : Prop where
  schema : later.schema = store.schema
  entries : ∀ (index : Nat) (entry : Entry), store.entries[index]? = some entry →
    ∃ kept, later.entries[index]? = some kept ∧ entry.Keeps store.schema kept
  idOf? : ∀ key id, store.idOf? key = some id → later.idOf? key = some id
  resolvable : ∀ target, store.resolvable target = true → later.resolvable target = true
  resolve : ∀ concept key, store.resolve concept = .ok key → later.resolve concept = .ok key

theorem resolve_eq_ok_iff {key : Key} :
    store.resolve concept = .ok key ↔ store.missingTarget? concept = none ∧ concept.key = key := by
  unfold resolve
  cases store.missingTarget? concept <;> simp

theorem Grows.retained (hgrows : store.Grows later) (hstore : store.WellFormed)
    (hlater : later.WellFormed) : store.Retained later where
  schema := hgrows.schema
  entries index entry hentry := by
    have hindex := hstore.index_id hentry
    have hget : store.get? entry.id = some entry := by
      simpa only [get?, hindex] using hentry
    obtain ⟨kept, hkept, hkeeps⟩ := hgrows.keeps hstore hlater hget
    refine ⟨kept, ?_, hkeeps⟩
    simpa only [get?, hindex] using hkept
  idOf? _ _ := hgrows.idOf?
  resolvable _ := hgrows.resolvable
  resolve concept key h := by
    rw [resolve_eq_ok_iff] at h ⊢
    exact ⟨hgrows.missingTarget? h.1, h.2⟩

/-- An offer changes nothing if it is refused or adds nothing, puts one entry at the end
if the key is new, and otherwise adds items to the cumulative attributes of the entry
with the key. After any sequence of offers everything that was stored is still there,
and every reference that led somewhere still does. -/
theorem Reachable.insertAll_retains (h : store.Reachable) :
    (∀ concept origin, ∃ answer next,
      store.insertAll [(concept, origin)] = ([answer], next) ∧
        store.Effect concept origin answer next) ∧
    ∀ attempts, store.Retained (store.insertAll attempts).2 := by
  constructor
  · exact h.wellFormed.exists_effect
  · intro attempts
    obtain ⟨hlater, hgrows⟩ := h.wellFormed.insertAll attempts
    exact hgrows.retained h.wellFormed hlater

/-! ## Saying a thing again -/

/-- The answer to an offer names the entry under whose key the concept is stored. -/
theorem WellFormed.idOf?_of_insert (hstore : store.WellFormed)
    (h : store.insert concept origin = .ok (admission, next)) :
    next.idOf? concept.key = some admission.id := by
  obtain ⟨kind, -, -, hinsertion⟩ := insert_eq_ok_iff.1 h
  cases hinsertion with
  | admitted hid hnew => rw [idOf?_push, if_pos rfl]; rfl
  | alreadyPresent hfind => exact hstore.idOf?_of_find? hfind
  | merged hfind => exact hstore.idOf?_of_find? hfind

/-- What has been taken in once is answered, at any later time and whatever its origin,
as present under the identifier that it was given then, and changes nothing. -/
theorem Reachable.insert_again (h : store.Reachable)
    (hinsert : store.insert concept origin = .ok (admission, next))
    (attempts : List (Concept × Origin)) (origin' : Origin) :
    (next.insertAll attempts).2.insert concept origin' =
      .ok (.alreadyPresent admission.id, (next.insertAll attempts).2) := by
  have hstore := h.wellFormed
  have hnext := hstore.insert hinsert
  obtain ⟨hlater, hgrows⟩ := hnext.insertAll attempts
  have hrepresents : (next.insertAll attempts).2.Represents concept :=
    (hstore.represents_of_insert hinsert).grows hgrows hnext hlater
  obtain ⟨id, hagain⟩ := hrepresents.insert_eq hlater origin'
  -- Identifiers of keys stay, so the later answer can name no other entry.
  have hfirst := hgrows.idOf? (hstore.idOf?_of_insert hinsert)
  have hid : id = admission.id :=
    Option.some.inj ((hlater.idOf?_of_insert hagain).symm.trans hfirst)
  rw [hagain, hid]

end Store

/-! ## A diary -/

namespace Diary

/-- Days, on which notes add up. -/
def schema : Schema :=
  .ofKinds [{ name := "D", keyFields := ["n"], cumulative := .ofNames ["notes"] }]

/-- A day with its weather and some notes. -/
def day (n : Int64) (weather : String) (notes : Value) : Concept where
  kind := "D"
  fields := [.int n]
  payload := .ofList [("weather", .string weather), ("notes", notes)]

/-- A diary in which one day is described. -/
def diary : Store := ((Store.empty schema).insertAll [(day 1 "sun" (.int 2), .seed 0)]).2

theorem diary_reachable : diary.Reachable :=
  (Store.Reachable.empty schema).insertAll _

/-- Further notes on the first day are merged, another weather is refused, and another
day is entered. Nothing of that takes away what the diary says. -/
theorem diary_retained :
    (∃ next, diary.insertAll [(day 1 "sun" (.list [.int 3, .int 1]), .seed 1)] =
        ([.ok (.merged ⟨0, by decide⟩)], next) ∧
      diary.Effect (day 1 "sun" (.list [.int 3, .int 1])) (.seed 1)
        (.ok (.merged ⟨0, by decide⟩)) next) ∧
    diary.Retained (diary.insertAll
      [(day 1 "rain" .null, .seed 1), (day 1 "sun" (.int 1), .seed 2),
        (day 2 "rain" .null, .seed 3)]).2 := by
  obtain ⟨hoffer, hlater⟩ := diary_reachable.insertAll_retains
  refine ⟨?_, hlater _⟩
  obtain ⟨answer, next, hinsert, heffect⟩ := hoffer (day 1 "sun" (.list [.int 3, .int 1])) (.seed 1)
  have hanswers : (diary.insertAll [(day 1 "sun" (.list [.int 3, .int 1]), .seed 1)]).1 =
      [.ok (.merged ⟨0, by decide⟩)] := by cbv
  rw [hinsert] at hanswers
  obtain rfl := List.singleton_inj.1 hanswers
  exact ⟨next, hinsert, heffect⟩

/-- A day is described by a list of notes that is neither sorted nor free of
repetitions. Others add to it later, and still it is known when it comes again. -/
theorem day_again : ∃ admission next,
    diary.insert (day 2 "rain" (.list [.int 3, .int 1, .int 3])) (.seed 1) =
      .ok (admission, next) ∧ admission = .admitted ⟨1, by decide⟩ ∧
    (next.insertAll [(day 2 "rain" (.int 2), .seed 2), (day 2 "sun" .null, .seed 3)]).2.insert
        (day 2 "rain" (.list [.int 3, .int 1, .int 3])) (.seed 4) =
      .ok (.alreadyPresent ⟨1, by decide⟩,
        (next.insertAll [(day 2 "rain" (.int 2), .seed 2), (day 2 "sun" .null, .seed 3)]).2) := by
  have hcheck : ((diary.insert (day 2 "rain" (.list [.int 3, .int 1, .int 3]))
      (.seed 1)).toOption.any fun answer => answer.1 = .admitted ⟨1, by decide⟩) = true := by cbv
  cases hinsert : diary.insert (day 2 "rain" (.list [.int 3, .int 1, .int 3])) (.seed 1) with
  | error error =>
      rw [hinsert] at hcheck
      cases hcheck
  | ok answer =>
      rw [hinsert] at hcheck
      obtain ⟨admission, next⟩ := answer
      obtain rfl : admission = .admitted ⟨1, by decide⟩ := of_decide_eq_true hcheck
      exact ⟨_, next, rfl, rfl, diary_reachable.insert_again hinsert _ _⟩

end Diary

end ConceptExpansion
