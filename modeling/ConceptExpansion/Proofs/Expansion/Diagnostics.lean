/-
# Errors name what went wrong

An error about a declaration points at a declaration that was made. The position in an
invalid seed is that of a seed which does not fit the schema, and no seed with a smaller
key is at fault too. A conflict quotes two descriptions of one key that differ, and each
of its origins is true: it is the position of a seed, or the name of a rule that was
invoked on the source and returned what is attributed to it. This is so although offers
are sorted, may wait, and are placed batches later, and although the stored description
may have been merged from several declarations; its origin is that of the first one.

That the seeds are attributed correctly is a matter of what waits and of what is stored,
which `Attributed` keeps. That no smaller seed is at fault is a matter of their order.
-/

import ConceptExpansion.Proofs.Expansion.Failing
import ConceptExpansion.Proofs.Expansion.SeedOrder
import ConceptExpansion.Proofs.Store.Refusals

namespace ConceptExpansion

/-! ## What an error says -/

/-- The kind of the concept is not declared, or it is declared with another number of key
fields than the concept has. -/
def Schema.Misfit (schema : Schema) (concept : Concept) : Prop :=
  schema.get? concept.kind = none ∨
    ∃ kind, schema.get? concept.kind = some kind ∧ kind.arity ≠ concept.fields.length

theorem Schema.misfit_of_validate {schema : Schema} {concept : Concept} {cause : SchemaError}
    (h : schema.validate concept = .error cause) : schema.Misfit concept := by
  unfold validate at h
  split at h
  · next hkind => exact .inl hkind
  · next kind hkind =>
      split at h
      · cases h
      · next harity => exact .inr ⟨kind, hkind, harity⟩

/-- Both descriptions have the key, the attribute is the first plain one of its kind on
which they differ, the refused one was declared with its origin, and so was a description
of the stored concept. -/
structure Conflict.Accurate (schema : Schema) (declared : Origin → Concept → Prop)
    (conflict : Conflict) : Prop where
  existing_key : conflict.existing.key = conflict.key
  incoming_key : conflict.incoming.key = conflict.key
  difference : ∃ kind, schema.get? conflict.key.kind = some kind ∧
    kind.FirstDifference conflict.existing.payload conflict.incoming.payload
      conflict.attributeName
  incoming : declared conflict.incomingOrigin conflict.incoming
  existing : ∃ concept, concept.key = conflict.key ∧ declared conflict.existingOrigin concept

theorem Conflict.Accurate.imp {schema : Schema} {declared declared' : Origin → Concept → Prop}
    {conflict : Conflict} (h : conflict.Accurate schema declared)
    (himp : ∀ origin concept, declared origin concept → declared' origin concept) :
    conflict.Accurate schema declared' where
  existing_key := h.existing_key
  incoming_key := h.incoming_key
  difference := h.difference
  incoming := himp _ _ h.incoming
  existing := h.existing.imp fun _ hconcept => ⟨hconcept.1, himp _ _ hconcept.2⟩

namespace Run

variable {registry : Registry} {settings : Settings} {seeds : List Concept}
  {passed begun : List Run} {run next : Run} {jobs : List Job} {error : ExpansionError}
  {offer : Offer} {offers : List Offer}

/-- The concept was declared with this origin: it is the seed at the position, or a rule
of the name was invoked on the source in one of the batches that have been begun, and has
returned it. -/
inductive Declared (registry : Registry) (settings : Settings) (seeds : List Concept)
    (begun : List Run) : Origin → Concept → Prop
  | seed {position : Nat} {concept : Concept} (hseed : seeds[position]? = some concept) :
      Declared registry settings seeds begun (.seed position) concept
  | product {run : Run} {job : Job} {source : Entry} {products : List Concept}
      {concept : Concept} (hrun : run ∈ begun) (hcovered : run.Covered registry settings)
      (hjob : job ∈ run.batchJobs registry) (hsource : run.store.get? job.source = some source)
      (hproducts : job.rule.expand source.concept run.store = .ok products)
      (hconcept : concept ∈ products) :
      Declared registry settings seeds begun (.rule job.rule.name source.key) concept

/-- The seed at the position has the key and does not fit the schema, and every seed with
a smaller key does fit it. -/
structure BlamesSeed (schema : Schema) (seeds : List Concept) (position : Nat) (key : Key)
    (cause : SchemaError) : Prop where
  seed : ∃ seed, seeds[position]? = some seed ∧ seed.key = key ∧
    schema.validate seed = .error cause ∧ schema.Misfit seed
  smaller : ∀ seed ∈ seeds, seed.key.compare key = .lt →
    ∃ kind, schema.validate seed = .ok kind

/-! ## Conflicts -/

/-- What is known of an error when an offer is taken in: the seed that it blames does not
fit the schema, and its conflict is between descriptions that were issued. -/
def Explained (registry : Registry) (seeds : List Concept) (begun : List Run) :
    ExpansionError → Prop
  | .invalidSeed position key cause =>
    ∃ seed, seeds[position]? = some seed ∧ seed.key = key ∧
      registry.schema.validate seed = .error cause
  | .duplicateKeyConflict conflict =>
    conflict.Accurate registry.schema fun origin concept => ∃ bound offer,
      Issued registry seeds begun bound offer ∧ offer.origin = origin ∧ offer.concept = concept
  | _ => True

/-- If the store refuses the next offer, the error is explained. -/
theorem Attributed.explained {rest : List Offer}
    (h : Attributed registry settings seeds begun run (offer :: rest))
    (hschema : run.store.schema = registry.schema) {cause : StoreError}
    (hinsert : run.store.insert offer.concept offer.origin = .error cause) :
    Explained registry seeds begun (.ofStoreError cause) := by
  cases Store.refusal_of_insert hinsert with
  | @conflict kind entry name hvalid _ hfind hname =>
      obtain ⟨hget, hkey⟩ := h.wellFormed.find?_eq_some_iff.1 hfind
      have hconcept : entry.concept.key = entry.key := h.wellFormed.concept_key hget
      obtain ⟨source, hissued, hbecame⟩ := h.stored hget
      have hkind : registry.schema.get? entry.key.kind = some kind := by
        rw [← hschema, hkey]
        exact Schema.get?_of_validate hvalid
      have hoffer := h.waiting offer (List.mem_append_right _ List.mem_cons_self)
      exact
        { existing_key := hconcept
          incoming_key := hkey.symm
          difference := ⟨kind, hkind, KindDef.disagreement?_eq_some_iff.1 hname⟩
          incoming := ⟨_, offer, hoffer, rfl, rfl⟩
          existing := ⟨source.concept, hbecame.key, _, source, hissued, hbecame.origin, rfl⟩ }
  | invalid | unresolved | full => trivial

/-- While offers are taken in, errors are explained. -/
theorem throughout_explained (registry : Registry) (settings : Settings) (seeds : List Concept)
    (begun : List Run) :
    Throughout settings (Explained registry seeds begun) fun run rest =>
      Attributed registry settings seeds begun run rest ∧
        run.store.schema = registry.schema where
  reject {run offer rest cause} hrun hinvalid := by
    obtain ⟨hattributed, hschema⟩ := hrun
    have hissued := hattributed.waiting offer (List.mem_append_right _ List.mem_cons_self)
    rw [hschema] at hinvalid
    cases hissued with
    | seed hseed => exact ⟨_, hseed, rfl, hinvalid⟩
    | product => trivial
  defer hrun hmissing deferrals :=
    ⟨(throughout_attributed registry settings seeds begun).defer hrun.1 hmissing deferrals, hrun.2⟩
  place {run offer rest} hrun hmissing := by
    obtain ⟨hattributed, hschema⟩ := hrun
    refine ends_place (fun cause => hattributed.explained hschema) (fun _ _ _ _ _ => trivial)
      fun next hplaced => ?_
    have hcarries := (carries_of_place hattributed.wellFormed hplaced).1
    exact ⟨hattributed.place hplaced, hcarries.grows.schema.trans hschema⟩
  pass hrun := ⟨(throughout_attributed registry settings seeds begun).pass hrun.1, hrun.2⟩

/-- However an expansion fails, its error is explained by the seeds and by the batches
that have been begun. -/
theorem FailsAfter.explained (h : FailsAfter registry settings seeds begun error) :
    Explained registry seeds begun error := by
  cases h with
  | start h =>
      exact ((throughout_explained registry settings seeds []).start
        ⟨attributed_beforeSeeds registry settings seeds, rfl⟩).of_error h
  | @step passed run _ hcourse hstep =>
      refine hcourse.error_of_step (throughout_explained registry settings seeds _) ?_
        (fun _ _ => trivial) (fun _ _ _ => trivial) hstep
      intro state hsame
      rw [hsame.store]
      exact hcourse.reachable.accounts.schema
  | @finish passed last _ hcourse hphase h =>
      obtain ⟨concept, origin, target, rfl⟩ := unresolved_of_finish h
      trivial

/-- What was issued while the run invoked all rules was declared. -/
theorem Issued.declared {bound : Nat} (h : Issued registry seeds begun bound offer)
    (hcovered : ∀ run ∈ begun, run.Covered registry settings) :
    Declared registry settings seeds begun offer.origin offer.concept := by
  cases h with
  | seed hseed => exact .seed hseed
  | product hrun _ hjob hsource hproducts hconcept =>
      exact .product hrun (hcovered _ hrun) hjob hsource hproducts hconcept

theorem FailsAfter.accurate {conflict : Conflict}
    (h : FailsAfter registry settings seeds begun (.duplicateKeyConflict conflict)) :
    conflict.Accurate registry.schema (Declared registry settings seeds begun) := by
  have hcovered : ∀ run ∈ begun, run.Covered registry settings := by
    intro run hrun
    apply h.covered _ hrun
    intro limit chain herror
    cases herror
  have hexplained : Explained registry seeds begun (.duplicateKeyConflict conflict) := h.explained
  apply hexplained.imp
  rintro _ _ ⟨bound, offer, hissued, rfl, rfl⟩
  exact hissued.declared hcovered

/-! ## Invalid seeds -/

/-- Seeds that are received fit the schema of the registry. -/
theorem valid_of_receive_seeds
    (h : offers.foldlM (receive settings) (beforeSeeds registry seeds.length) = .ok next)
    (hoffer : offer ∈ offers) : ∃ kind, registry.schema.validate offer.concept = .ok kind := by
  obtain ⟨kind, hvalid⟩ := valid_of_receiveAll (Store.wellFormed_empty _) h offer hoffer
  exact ⟨kind, hvalid⟩

/-- An invalid seed is reported under the key of the offer that is being received. -/
theorem key_of_receive_error {position : Nat} {key : Key} {cause : SchemaError}
    (h : run.receive settings offer = .error (.invalidSeed position key cause)) :
    offer.concept.key = key := by
  unfold receive at h
  split at h
  · unfold Offer.rejection at h
    split at h <;> cases h
    rfl
  · split at h
    · cases h
    · rw [place_eq] at h
      split at h
      · next cause _ => cases cause <;> cases h
      · split at h <;> cases h

/-- A seed with a smaller key than another is offered before it. -/
theorem mem_before_of_lt {before after : List Offer}
    (hsplit : Offer.ofSeeds seeds = before ++ offer :: after) {other : Offer}
    (hother : other ∈ Offer.ofSeeds seeds)
    (hlt : other.concept.key.compare offer.concept.key = .lt) : other ∈ before := by
  have hsorted : (Offer.ofSeeds seeds).Pairwise fun a b => a.keyAtMost b :=
    Offer.pairwise_mergeSort _
  rw [hsplit] at hsorted hother
  rcases List.mem_append.1 hother with hearlier | hlater
  · exact hearlier
  · exfalso
    have hfrom : (offer :: after).Pairwise fun a b => a.keyAtMost b :=
      (List.pairwise_append.1 hsorted).2.1
    have hle : offer.concept.key.atMost other.concept.key := by
      rcases List.mem_cons.1 hlater with rfl | hlater
      · exact Key.atMost_refl _
      · exact List.rel_of_pairwise_cons hfrom hlater
    have heq := Key.atMost_antisymm _ _ (Key.atMost_of_lt hlt) hle
    have hself : offer.concept.key.compare offer.concept.key = .eq := Std.ReflCmp.compare_self
    rw [heq, hself] at hlt
    cases hlt

theorem FailsAfter.blamesSeed {position : Nat} {key : Key} {cause : SchemaError}
    (h : FailsAfter registry settings seeds begun (.invalidSeed position key cause)) :
    BlamesSeed registry.schema seeds position key cause := by
  obtain ⟨seed, hseed, hkey, hinvalid⟩ := h.explained
  refine ⟨⟨seed, hseed, hkey, hinvalid, Schema.misfit_of_validate hinvalid⟩, ?_⟩
  cases hfold : (Offer.ofSeeds seeds).foldlM (receive settings)
      (beforeSeeds registry seeds.length) with
  | ok offered =>
      -- If all seeds had been received, they would all fit the schema.
      obtain ⟨kind, hvalid⟩ := valid_of_receive_seeds hfold
        (mem_ofSeeds.2 ⟨position, seed, hseed, rfl⟩)
      rw [hinvalid] at hvalid
      cases hvalid
  | error error =>
      have hstart : Run.start registry settings seeds = .error error := bind_of_eq_error hfold _
      have hexpand := (bind_of_eq_error hstart _).symm.trans (expand_eq_error_iff.2 ⟨begun, h⟩)
      obtain ⟨before, offer, after, middle, hsplit, hbefore, hfails⟩ :=
        exists_of_foldlM_eq_error hfold
      cases hexpand
      obtain rfl := key_of_receive_error hfails
      intro other hother hlt
      obtain ⟨position', hposition⟩ := List.mem_iff_getElem?.1 hother
      have hoffered := mem_ofSeeds.2 ⟨position', other, hposition, rfl⟩
      exact valid_of_receive_seeds hbefore (mem_before_of_lt hsplit hoffered hlt)

end Run

/-- An expansion that fails has begun certain batches, and what its error says of
declarations is true. An invalid seed is one, and no seed with a smaller key is invalid.
A conflict is between two descriptions of its key that differ on the attribute, and on no
smaller plain one; the refused one and a stored one were declared with its origins. -/
theorem expand_error_accurate {registry : Registry} {settings : Settings}
    {seeds : List Concept} {error : ExpansionError}
    (h : registry.expand settings seeds = .error error) :
    ∃ begun, Run.FailsAfter registry settings seeds begun error ∧
      (∀ position key cause, error = .invalidSeed position key cause →
        Run.BlamesSeed registry.schema seeds position key cause) ∧
      ∀ conflict, error = .duplicateKeyConflict conflict →
        conflict.Accurate registry.schema (Run.Declared registry settings seeds begun) := by
  obtain ⟨begun, hfails⟩ := Run.expand_eq_error_iff.1 h
  refine ⟨begun, hfails, ?_, ?_⟩
  · rintro position key cause rfl
    exact hfails.blamesSeed
  · rintro conflict rfl
    exact hfails.accurate

/-! ## A telegram -/

namespace Telegram

/-- A person, by number. -/
def person (n : Int64) : Concept :=
  { kind := "P", fields := [.int n] }

/-- A telegram to a person. -/
def telegram (n : Int64) (text : String) : Concept where
  kind := "T"
  fields := [(person n).reference]
  payload := .ofList [("lang", .string "en"), ("text", .string text)]

/-- Whoever comes finds a second person and wires them. -/
def wire : Rule where
  name := "wire"
  expand _ _ := .ok [person 2, telegram 2 "arrived"]

/-- Persons and telegrams to them. -/
def registry : Registry where
  schema := .ofKinds [{ name := "P", keyFields := ["n"] }, { name := "T", keyFields := ["to"] }]
  rules := .ofList [("P", [wire])]

/-- A telegram to someone who has not been found yet, and the person who will. -/
def seeds : List Concept :=
  [telegram 2 "departed", person 1]

/-- The telegram that has waited contradicts the one that the rule has sent meanwhile. -/
def clash : Conflict where
  key := (telegram 2 "departed").key
  attributeName := "text"
  existing := telegram 2 "arrived"
  existingOrigin := .rule "wire" (person 1).key
  incoming := telegram 2 "departed"
  incomingOrigin := .seed 0

/-- The rule was invoked on the person and has returned a telegram to the second one. -/
theorem telegram_traced : ∃ begun,
    Run.FailsAfter registry {} seeds begun (.duplicateKeyConflict clash) ∧
    clash.Accurate registry.schema (Run.Declared registry {} seeds begun) ∧
    ∃ run ∈ begun, ∃ job ∈ run.batchJobs registry, job.rule.name = "wire" ∧
      ∃ source products concept, run.store.get? job.source = some source ∧
        source.key = (person 1).key ∧
        job.rule.expand source.concept run.store = .ok products ∧ concept ∈ products ∧
        concept.key = clash.key := by
  have hexpand : registry.expand {} seeds = .error (.duplicateKeyConflict clash) :=
    Run.expand_of_after_error (show Run.after registry {} seeds 1 = _ by cbv)
  obtain ⟨begun, hfails, -, hconflict⟩ := expand_error_accurate hexpand
  have haccurate := hconflict clash rfl
  refine ⟨begun, hfails, haccurate, ?_⟩
  obtain ⟨concept, hkey, hdeclared⟩ := haccurate.existing
  generalize horigin : clash.existingOrigin = origin at hdeclared
  cases hdeclared with
  | seed => cases horigin
  | @product run job source products _ hrun _ hjob hsource hproducts hconcept =>
      obtain ⟨hname, hsourceKey⟩ := Origin.rule.inj horigin
      exact ⟨run, hrun, job, hjob, hname.symm, source, products, concept, hsource,
        hsourceKey.symm, hproducts, hconcept, hkey⟩

end Telegram

end ConceptExpansion
