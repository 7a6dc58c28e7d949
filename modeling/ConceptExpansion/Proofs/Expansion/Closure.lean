/-
# A model is closed, or the report of what is missing is true

Nothing is stored whose key references lead nowhere, but payloads may refer to
concepts that have not come up yet, and offers may wait for key references. Both are
looked at when the run has settled. A run that passes yields a model in which every
reference leads somewhere. A run that does not is reported with one reference, and
the report can be taken at its word: that reference is held by a concept that has
been offered, and it leads nowhere in the state in which the run has settled.

Offers that wait come first. They are the offered concepts that were never admitted,
since trying again never stops before every offer left over waits for something. So
the report always names the key reference that is waited for, never the concept in
its place.
-/

import ConceptExpansion.Proofs.Expansion.Conservation
import ConceptExpansion.Proofs.Expansion.SeedOrder
import ConceptExpansion.Proofs.Expansion.Termination
import ConceptExpansion.Proofs.Run.Provenance
import ConceptExpansion.Proofs.Store.Resolution

namespace ConceptExpansion

namespace Run

variable {registry : Registry} {settings : Settings} {seeds : List Concept}
  {passed : List Run} {run next last : Run} {jobs : List Job}

/-! ## What is deferred waits -/

/-- In every state of a run each deferred offer waits for a key reference that leads
nowhere, also where a round had nothing to ask. -/
theorem Reachable.waits (h : Reachable registry settings seeds run) :
    ∀ offer ∈ run.deferred, run.store.missingTarget? offer.concept ≠ none := by
  have hbatch : ∀ {begun batch : Run} {jobs : List Job},
      begun.runBatch settings jobs = .ok batch →
        ∀ offer ∈ batch.deferred, batch.store.missingTarget? offer.concept ≠ none := by
    intro begun batch jobs h
    obtain ⟨-, absorbed, -, hretry⟩ := runBatch_ok_cases h
    exact missing_of_retry hretry
  induction h with
  | start h =>
      obtain ⟨offered, -, hretry⟩ := start_ok h
      exact missing_of_retry hretry
  | step _ h ih =>
      cases move_of_step h with
      | turn | idle | rest => exact ih
      | wave _ hwave =>
          have hwaits := hbatch hwave
          exact hwaits
      | round _ hround =>
          have hwaits := hbatch hround
          exact hwaits

/-- What was issued was offered: it is a seed or was returned by a rule. -/
theorem Issued.mem_offered {bound : Nat} {offer : Offer}
    (h : Issued registry seeds passed bound offer) :
    offer.concept ∈ seeds ++ passed.flatMap (returned registry) := by
  cases h with
  | seed hseed => exact List.mem_append_left _ (List.mem_of_getElem? hseed)
  | product hearlier _ hjob hsource hproducts hconcept =>
      refine List.mem_append_right _ (List.mem_flatMap.2 ⟨_, hearlier, ?_⟩)
      refine List.mem_flatMap.2 ⟨_, hjob, ?_⟩
      rwa [Job.products_of_answer ((Job.answer_of_get? hsource).trans hproducts)]

/-- An offered concept that is not stored is deferred. -/
theorem Course.exists_deferred (h : Course registry settings seeds passed run) {concept : Concept}
    (hconcept : concept ∈ seeds ++ passed.flatMap (returned registry))
    (hnever : ∀ entry ∈ run.store.entries, entry.key ≠ concept.key) :
    ∃ offer ∈ run.deferred, offer.concept = concept := by
  have hrun := h.reachable.accounts.wellFormed
  refine (h.holds concept hconcept).resolve_left fun hrepresents => ?_
  obtain ⟨entry, hentry, hkey, -⟩ := hrepresents.exists_entry hrun
  exact hnever entry hentry hkey

/-- A deferred offer is of a concept that is not stored. -/
theorem Reachable.not_stored_of_deferred (h : Reachable registry settings seeds run)
    {offer : Offer} (hoffer : offer ∈ run.deferred) :
    ∀ entry ∈ run.store.entries, entry.key ≠ offer.concept.key := by
  have hrun := h.accounts.wellFormed
  have hnot := hrun.not_contains_of_missing (h.waits offer hoffer)
  rw [← Bool.not_eq_true, hrun.contains_iff_mem] at hnot
  exact fun entry hentry hkey => hnot ⟨entry, hentry, hkey⟩

/-! ## What is left loose -/

/-- The deferred offer that is reported has the least key. -/
theorem least_of_leastDeferred? {offer : Offer} (h : run.leastDeferred? = some offer) :
    offer ∈ run.deferred ∧
      ∀ other ∈ run.deferred, offer.concept.key.atMost other.concept.key = true := by
  have hsorted := Offer.pairwise_mergeSort run.deferred
  have hleast : (run.deferred.mergeSort Offer.keyAtMost).head? = some offer := h
  obtain ⟨rest, hrest⟩ := List.head?_eq_some_iff.1 hleast
  rw [hrest] at hsorted
  have hmem : ∀ {other : Offer}, other ∈ run.deferred ↔ other ∈ offer :: rest := by
    intro other
    rw [← hrest, List.mem_mergeSort]
  refine ⟨hmem.2 List.mem_cons_self, fun other hother => ?_⟩
  rcases List.mem_cons.1 (hmem.1 hother) with rfl | hother
  · exact Key.atMost_refl other.concept.key
  · exact (List.pairwise_cons.1 hsorted).1 other hother

/-- What the report of a reference says about the state `last` in which the run has
settled. -/
inductive Diagnosis (registry : Registry) (seeds : List Concept) (passed : List Run)
    (last : Run) : Key → Origin → Key → Prop
  /-- Some of the offered concepts were never admitted. The one with the least key is
  named, with its first key reference that leads nowhere. -/
  | waiting {offer : Offer} {target : Key}
      (hissued : Issued registry seeds passed last.store.size offer)
      (hoffered : offer.concept ∈ seeds ++ passed.flatMap (returned registry))
      (hnever : ∀ entry ∈ last.store.entries, entry.key ≠ offer.concept.key)
      (hleast : ∀ concept ∈ seeds ++ passed.flatMap (returned registry),
        (∀ entry ∈ last.store.entries, entry.key ≠ concept.key) →
          offer.concept.key.atMost concept.key = true)
      (hmissing : last.store.FirstMissing offer.concept.keyRefs target) :
      Diagnosis registry seeds passed last offer.concept.key offer.origin target
  /-- All of the offered concepts were admitted. Of the stored concepts with a
  reference that leads nowhere the one that was admitted first is named, with its
  first such reference, key fields first. -/
  | dangling {before after : List Entry} {entry : Entry} {target : Key}
      (hadmitted : ∀ concept ∈ seeds ++ passed.flatMap (returned registry),
        last.store.Represents concept)
      (hentries : last.store.entries.toList = before ++ entry :: after)
      (hbefore : ∀ earlier ∈ before, ∀ target, earlier.concept.Mentions target →
        last.store.Resolves target)
      (hmissing : last.store.FirstMissing entry.concept.refs target) :
      Diagnosis registry seeds passed last entry.key entry.origin target

/-- The reported reference leads nowhere, and the reported concept has it, as it was
offered or as it is stored. -/
theorem Diagnosis.mentions {concept target : Key} {origin : Origin}
    (hrun : last.store.WellFormed)
    (h : Diagnosis registry seeds passed last concept origin target) :
    ¬ last.store.Resolves target ∧
      ∃ described : Concept, described.key = concept ∧ described.Mentions target ∧
        (described ∈ seeds ++ passed.flatMap (returned registry) ∨
          ∃ entry ∈ last.store.entries, entry.concept = described) := by
  cases h with
  | @waiting offer _ _ hoffered _ _ hmissing =>
      have hmentions := Concept.mem_keyRefs_iff.1 hmissing.mem
      exact ⟨hmissing.not_resolves, offer.concept, rfl, .inl hmentions, .inl hoffered⟩
  | @dangling before after entry _ _ hentries _ hmissing =>
      have hentry : entry ∈ last.store.entries := by
        rw [← Array.mem_toList_iff, hentries]
        exact List.mem_append_right _ List.mem_cons_self
      exact ⟨hmissing.not_resolves, entry.concept, hrun.concept_key_of_mem hentry,
        Concept.mem_refs_iff.1 hmissing.mem, .inr ⟨entry, hentry, rfl⟩⟩

/-- What a settled run leaves loose is reported truly. -/
theorem Course.diagnosis_of_loose? (h : Course registry settings seeds passed run)
    {concept target : Key} {origin : Origin}
    (hloose : run.loose? = some (.unresolvedReference concept origin target)) :
    Diagnosis registry seeds passed run concept origin target := by
  have hreach := h.reachable
  have hrun := hreach.accounts.wellFormed
  unfold loose? at hloose
  split at hloose
  · next offer hoffer =>
      obtain ⟨hdeferred, hleast⟩ := least_of_leastDeferred? hoffer
      obtain ⟨missing, hmissing⟩ := Option.ne_none_iff_exists'.1 (hreach.waits offer hdeferred)
      rw [hmissing] at hloose
      cases hloose
      have hissued := h.attributed.waiting offer (List.mem_append_left _ hdeferred)
      refine .waiting hissued hissued.mem_offered (hreach.not_stored_of_deferred hdeferred) ?_
        (hrun.missingTarget?_eq_some_iff.1 hmissing)
      intro other hother hnever
      obtain ⟨waiting, hwaiting, rfl⟩ := h.exists_deferred hother hnever
      exact hleast waiting hwaiting
  · next hnone =>
      obtain ⟨⟨entry, missing⟩, hhead, herror⟩ := Option.map_eq_some_iff.1 hloose
      cases herror
      obtain ⟨before, after, hentries, hbefore, hmissing⟩ :=
        hrun.head?_dangling_eq_some_iff.1 hhead
      have hdeferred := leastDeferred?_eq_none_iff.1 hnone
      refine .dangling ?_ hentries hbefore hmissing
      exact fun concept hconcept => (h.holds concept hconcept).represents hdeferred

/-! ## Where the report comes from -/

/-- The errors other than that a reference leads nowhere. -/
def NotUnresolved (error : ExpansionError) : Prop :=
  ∀ concept origin target, error ≠ .unresolvedReference concept origin target

theorem throughout_notUnresolved (settings : Settings) :
    Throughout settings NotUnresolved fun _ _ => True := by
  apply (throughout_ofIntake settings).imp_error
  rintro error hintake concept origin target herror
  cases hintake with
  | ofStoreError cause => cases cause <;> cases herror
  | invalidSeed | invalidProduct | tooDeep => cases herror

/-- References that lead nowhere are not reported before a run has settled. -/
theorem notUnresolved_of_runBatch (settings : Settings) (run : Run) (jobs : List Job) :
    Ends NotUnresolved (fun _ => True) (run.runBatch settings jobs) := by
  apply (throughout_notUnresolved settings).ends_batch
  · intro name source failure concept origin target h
    cases h
  · cases hcharge : run.charge settings jobs with
    | ok charged => trivial
    | error error =>
        obtain ⟨chain, rfl⟩ := charge_error hcharge
        intro concept origin target h
        cases h

/-- An expansion that fails for want of a reference has settled. -/
theorem exists_course_of_unresolved {concept target : Key} {origin : Origin}
    (h : registry.expand settings seeds = .error (.unresolvedReference concept origin target)) :
    ∃ passed last, Course registry settings seeds passed last ∧ last.phase = .settled ∧
      last.finish = .error (.unresolvedReference concept origin target) := by
  cases hstart : Run.start registry settings seeds with
  | error error =>
      rw [Registry.expand, bind_of_eq_error hstart] at h
      cases h
      have hends : Ends NotUnresolved (fun _ => True) (Run.start registry settings seeds) :=
        (throughout_notUnresolved settings).start trivial
      exact absurd rfl (hends.of_error hstart concept origin target)
  | ok started =>
      rw [(Reachable.start hstart).expand_eq] at h
      cases hlast : started.toFixpoint registry settings with
      | error error =>
          rw [bind_of_eq_error hlast] at h
          cases h
          obtain ⟨failing, -, hstep⟩ := exists_step_of_toFixpoint_error (.start hstart) hlast
          rcases step_eq_error_iff.1 hstep with ⟨-, -, hbatch⟩ | ⟨-, -, hbatch⟩
          · exact absurd rfl ((notUnresolved_of_runBatch settings _ _).of_error hbatch _ _ _)
          · exact absurd rfl ((notUnresolved_of_runBatch settings _ _).of_error hbatch _ _ _)
      | ok last =>
          rw [bind_of_eq_ok hlast] at h
          obtain ⟨passed, hcourse, hphase⟩ := Course.toFixpoint (.start hstart) hlast
          exact ⟨passed, last, hcourse, hphase, h⟩

/-- A run that settles with something loose fails with it. -/
theorem expand_of_after_loose {error : ExpansionError} (count : Nat)
    (h : ((after registry settings seeds count).toOption.any fun last =>
      last.phase = .settled && last.loose? = some error) = true) :
    registry.expand settings seeds = .error error := by
  cases hafter : after registry settings seeds count with
  | error e => rw [hafter] at h; cases h
  | ok last =>
      rw [hafter] at h
      simp only [Except.toOption, Option.any_some, Bool.and_eq_true, decide_eq_true_eq] at h
      obtain ⟨hphase, hloose⟩ := h
      rw [expand_of_after hafter hphase, finish, hloose]

end Run

/-- In a model every reference of every stored concept, at any depth, is stored or of
a sink kind. If an expansion fails because a reference leads nowhere, the run has
settled in a state of which the report is true: the reference leads nowhere there, the
concept has it, and concept and reference are the first ones of their sort. -/
theorem expand_closed (registry : Registry) (settings : Settings) (seeds : List Concept) :
    (∀ model, registry.expand settings seeds = .ok model →
      ∀ entry ∈ model.store.entries, ∀ target, entry.concept.Mentions target →
        model.store.Resolves target) ∧
    ∀ concept origin target,
      registry.expand settings seeds = .error (.unresolvedReference concept origin target) →
        ∃ passed last, Run.Course registry settings seeds passed last ∧
          last.phase = .settled ∧
          last.finish = .error (.unresolvedReference concept origin target) ∧
          ¬ last.store.Resolves target ∧
          (∃ described : Concept, described.key = concept ∧ described.Mentions target ∧
            (described ∈ seeds ++ passed.flatMap (Run.returned registry) ∨
              ∃ entry ∈ last.store.entries, entry.concept = described)) ∧
          Run.Diagnosis registry seeds passed last concept origin target := by
  constructor
  · intro model h
    obtain ⟨passed, last, hcourse, -, hfinish⟩ := Run.course_of_expand h
    obtain ⟨hloose, rfl⟩ := Run.finish_eq_ok_iff.1 hfinish
    have hrun := hcourse.reachable.accounts.wellFormed
    exact hrun.dangling_eq_nil_iff_mentions.1 (Run.loose?_eq_none_iff.1 hloose).2
  · intro concept origin target h
    obtain ⟨passed, last, hcourse, hphase, hfinish⟩ := Run.exists_course_of_unresolved h
    have hloose : last.loose? = some (.unresolvedReference concept origin target) := by
      rw [Run.finish] at hfinish
      split at hfinish
      · next error hloose => rw [hloose, Except.error.inj hfinish]
      · cases hfinish
    have hdiagnosis := hcourse.diagnosis_of_loose? hloose
    obtain ⟨hmissing, hmentions⟩ :=
      hdiagnosis.mentions hcourse.reachable.accounts.wellFormed
    exact ⟨passed, last, hcourse, hphase, hfinish, hmissing, hmentions, hdiagnosis⟩

/-! ## An archive -/

namespace Archive

/-- A document, by number, that cites others. -/
def document (n : Int64) (cited : List Int64) : Concept where
  kind := "D"
  fields := [.int n]
  payload := .ofList [("cites", .list [.list (cited.map fun m => .ref "D" [.int m])])]

/-- A note on the document with this number. -/
def note (n : Int64) : Concept :=
  { kind := "N", fields := [(document n []).reference] }

/-- The first document comes with a note on the second. -/
def annotate : Rule where
  name := "annotate"
  expand concept _ := .ok (if concept.fields = [.int 1] then [note 2] else [])

/-- Documents and notes on them. -/
def registry : Registry where
  schema := .ofKinds [{ name := "D", keyFields := ["n"] }, { name := "N", keyFields := ["on"] }]
  rules := .ofList [("D", [annotate])]

/-- With both documents the archive is closed. Without the second one the note on it
waits, which is reported before the citation, and a document that cites a third one
dangles. -/
theorem expand_archive :
    (∃ model, registry.expand {} [document 1 [2], document 2 [1]] = .ok model ∧
      ∀ entry ∈ model.store.entries, ∀ target, entry.concept.Mentions target →
        model.store.Resolves target) ∧
    (∃ passed last, ¬ last.store.Resolves (document 2 []).key ∧
      Run.Diagnosis registry [document 1 [2]] passed last (note 2).key
        (.rule "annotate" (document 1 [2]).key) (document 2 []).key) ∧
    ∃ passed last, ¬ last.store.Resolves (document 3 []).key ∧
      Run.Diagnosis registry [document 2 [2, 3]] passed last (document 2 []).key (.seed 0)
        (document 3 []).key := by
  refine ⟨?_, ?_, ?_⟩
  · obtain ⟨model, hmodel, -⟩ := Run.exists_finish_of_after registry {}
      [document 1 [2], document 2 [1]] 5 (fun _ => true) (by cbv)
    exact ⟨model, hmodel, (expand_closed registry {} _).1 model hmodel⟩
  · have herror : registry.expand {} [document 1 [2]] = .error (.unresolvedReference
        (note 2).key (.rule "annotate" (document 1 [2]).key) (document 2 []).key) :=
      Run.expand_of_after_loose 5 (by cbv)
    obtain ⟨passed, last, -, -, -, hmissing, -, hdiagnosis⟩ :=
      (expand_closed registry {} [document 1 [2]]).2 _ _ _ herror
    exact ⟨passed, last, hmissing, hdiagnosis⟩
  · have herror : registry.expand {} [document 2 [2, 3]] = .error (.unresolvedReference
        (document 2 []).key (.seed 0) (document 3 []).key) := Run.expand_of_after_loose 5 (by cbv)
    obtain ⟨passed, last, -, -, -, hmissing, -, hdiagnosis⟩ :=
      (expand_closed registry {} [document 2 [2, 3]]).2 _ _ _ herror
    exact ⟨passed, last, hmissing, hdiagnosis⟩

end Archive

end ConceptExpansion
