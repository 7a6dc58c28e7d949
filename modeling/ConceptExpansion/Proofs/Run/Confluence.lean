/-
# The order of offers does not matter to the contents

A batch takes in its offers one after the other and then tries again whatever is
deferred. What it ends with does not depend on the order. If some order leads to
a store, then along any other order the store stays below that one, because
every offer that can be placed on the way is represented there in the end. So no
order can fail, unless a derivation chain becomes too long, and the stores at
which two orders end lie below each other: they have the same contents. The
offers that are left are those that wait for a key reference there, and the two
orders have the same fresh keys.
-/

import ConceptExpansion.Proofs.Matching
import ConceptExpansion.Proofs.Run.Course
import ConceptExpansion.Proofs.Store.Precedence

namespace ConceptExpansion

/-- The derivation chain of a new concept is longer than the settings allow. -/
def TooDeep (settings : Settings) (error : ExpansionError) : Prop :=
  ∃ chain, error = .nonTerminating (.depth settings.maxDepth) chain

/-- The concepts that the offers put forward. -/
def Offer.concepts (offers : List Offer) : List Concept :=
  offers.map (·.concept)

theorem Offer.concepts_append (offers offers' : List Offer) :
    concepts (offers ++ offers') = concepts offers ++ concepts offers' :=
  List.map_append

theorem Offer.concepts_cons (offer : Offer) (offers : List Offer) :
    concepts (offer :: offers) = offer.concept :: concepts offers :=
  List.map_cons

/-- Whatever the one job answers when it reads the one store, the other answers when
it reads the other store, but for the order of the concepts. -/
def Job.Akin (store store' : Store) (job job' : Job) : Prop :=
  ∀ products, job.answer store = .ok products →
    ∃ products', job'.answer store' = .ok products' ∧ products.Perm products'

namespace Store

variable {a b : Store} {concepts : List Concept}

/-- Those of the concepts that have a key reference which leads nowhere. -/
def waiting (store : Store) (concepts : List Concept) : List Concept :=
  concepts.filter fun concept => (store.missingTarget? concept).isSome

theorem waiting_append (store : Store) (concepts concepts' : List Concept) :
    store.waiting (concepts ++ concepts') = store.waiting concepts ++ store.waiting concepts' :=
  List.filter_append _ _

theorem waiting_cons_of_none {concept : Concept} (h : a.missingTarget? concept = none)
    (concepts : List Concept) : a.waiting (concept :: concepts) = a.waiting concepts :=
  List.filter_cons_of_neg (by rw [h]; decide)

/-- The store is one that all the concepts lead to: they fit its schema, and it
represents those whose key references lead somewhere in it. -/
structure Gathers (store : Store) (concepts : List Concept) : Prop where
  valid : ∀ concept ∈ concepts, ∃ kind, store.schema.validate concept = .ok kind
  represents : ∀ concept ∈ concepts, store.missingTarget? concept = none →
    store.Represents concept

theorem Gathers.perm {concepts' : List Concept} (h : a.Gathers concepts)
    (hperm : concepts'.Perm concepts) : a.Gathers concepts' :=
  ⟨fun concept hconcept => h.valid concept (hperm.mem_iff.1 hconcept),
    fun concept hconcept => h.represents concept (hperm.mem_iff.1 hconcept)⟩

theorem SameContents.waiting (h : SameContents a b) (ha : a.WellFormed) (hb : b.WellFormed)
    (concepts : List Concept) : a.waiting concepts = b.waiting concepts := by
  unfold Store.waiting
  congr 1
  funext concept
  rw [h.missingTarget? ha hb]

end Store

namespace Run

variable {settings : Settings} {run run' next next' : Run} {offers offers' : List Offer}
  {target : Store} {concepts : List Concept}

/-! ## On the way to a store -/

/-- The state is on the way to a store that gathers the concepts: its store lies
below, and what is deferred or still to come is what has not been placed. -/
structure Approaches (target : Store) (concepts : List Concept) (run : Run)
    (rest : List Offer) : Prop where
  wellFormed : run.store.WellFormed
  below : run.store.Below target
  subset : Offer.concepts (run.deferred ++ rest) ⊆ concepts
  waiting : (target.waiting (Offer.concepts (run.deferred ++ rest))).Perm
    (target.waiting concepts)

namespace Approaches

theorem mem {offer : Offer} {rest : List Offer}
    (h : Approaches target concepts run (offer :: rest)) : offer.concept ∈ concepts := by
  apply h.subset
  rw [Offer.concepts_append, Offer.concepts_cons]
  exact List.mem_append_right _ List.mem_cons_self

/-- An offer that has been placed is neither deferred nor still to come, and nor does
it wait at the end. -/
theorem record {offer : Offer} {rest : List Offer} {admission : Admission} {store : Store}
    (h : Approaches target concepts run (offer :: rest)) (hstore : store.WellFormed)
    (hbelow : store.Below target) (hmissing : target.missingTarget? offer.concept = none) :
    Approaches target concepts (run.record offer store admission) rest := by
  have hsubset := h.subset
  have hwaiting := h.waiting
  rw [Offer.concepts_append, Offer.concepts_cons] at hsubset hwaiting
  rw [Store.waiting_append, Store.waiting_cons_of_none hmissing, ← Store.waiting_append,
    ← Offer.concepts_append] at hwaiting
  refine ⟨?_, ?_, ?_, ?_⟩
  · rwa [record_store]
  · rwa [record_store]
  · rw [record_deferred, Offer.concepts_append]
    exact List.Subset.trans ((List.sublist_cons_self _ _).append_left _).subset hsubset
  · rwa [record_deferred]

end Approaches

/-- While offers are taken in, the state stays on the way, unless a derivation chain
becomes too long. -/
theorem throughout_approaches (settings : Settings) (htarget : target.WellFormed)
    (hgathers : target.Gathers concepts) :
    Throughout settings (TooDeep settings) (Approaches target concepts) where
  reject {run offer rest cause} hrun hinvalid := by
    obtain ⟨kind, hvalid⟩ := hgathers.valid offer.concept hrun.mem
    rw [← hrun.below.schema, hinvalid] at hvalid
    cases hvalid
  defer {run offer rest missing} hrun _ _ := by
    have hsplit : run.deferred ++ [offer] ++ rest = run.deferred ++ offer :: rest := by simp
    exact ⟨hrun.wellFormed, hrun.below, hsplit ▸ hrun.subset, hsplit ▸ hrun.waiting⟩
  place {run offer rest} hrun hmissing := by
    have hmissing' := hrun.below.missingTarget? hrun.wellFormed htarget hmissing
    have hconcept := hgathers.represents offer.concept hrun.mem hmissing'
    obtain ⟨admission, store, hinsert, hbelow⟩ :=
      hrun.below.insert hrun.wellFormed htarget hconcept hmissing offer.origin
    rw [place_eq, hinsert]
    dsimp only
    split
    · exact ⟨_, rfl⟩
    · exact hrun.record (hrun.wellFormed.insert hinsert) hbelow hmissing'
  pass {run} hrun := by
    have hrest : run.deferred ++ [] = run.deferred := List.append_nil _
    exact ⟨hrun.wellFormed, hrun.below, hrest ▸ hrun.subset, hrest ▸ hrun.waiting⟩

/-! ## Where a batch leads -/

theorem carries_of_intake (hrun : run.store.WellFormed)
    (h : run.intake settings offers = .ok next) : Carries run next := by
  obtain ⟨middle, hmiddle, hretry⟩ := exists_of_bind_eq_ok h
  have hfirst := (carries_of_foldlM carries_of_receive hrun hmiddle).1
  exact hfirst.trans (carries_of_retry hfirst.wellFormed hretry)

theorem appends_of_intake (h : run.intake settings offers = .ok next) : Appends run next :=
  ((throughout_appends settings run).intake (.refl run)).of_ok h

/-- The concepts that are deferred fit the schema. -/
def DeferredValid (run : Run) : Prop :=
  ∀ concept ∈ Offer.concepts run.deferred, ∃ kind, run.store.schema.validate concept = .ok kind

/-- What an intake leads to: a store that gathers all that was deferred or offered,
and of that exactly what waits there is deferred. -/
structure Lands (run : Run) (offers : List Offer) (next : Run) : Prop where
  carries : Carries run next
  gathers : next.store.Gathers (Offer.concepts (run.deferred ++ offers))
  deferred : (Offer.concepts next.deferred).Perm
    (next.store.waiting (Offer.concepts (run.deferred ++ offers)))

theorem approaches_of_below (hrun : run.store.WellFormed) (hbelow : run.store.Below target) :
    Approaches target (Offer.concepts (run.deferred ++ offers)) run offers :=
  ⟨hrun, hbelow, List.Subset.refl _, .refl _⟩

/-- Whatever is deferred or offered is represented in the end, unless it waits. -/
theorem gathers_of_intake (hrun : run.store.WellFormed) (hvalid : run.DeferredValid)
    (h : run.intake settings offers = .ok next) :
    next.store.Gathers (Offer.concepts (run.deferred ++ offers)) := by
  obtain ⟨middle, hmiddle, hretry⟩ := exists_of_bind_eq_ok h
  obtain ⟨hfirst, hoffers⟩ := carries_of_foldlM carries_of_receive hrun hmiddle
  have hrest := carries_of_retry hfirst.wellFormed hretry
  have hcarries := hfirst.trans hrest
  constructor
  · intro concept hconcept
    rw [hcarries.grows.schema]
    rw [Offer.concepts_append, List.mem_append] at hconcept
    rcases hconcept with hdeferred | hoffered
    · exact hvalid concept hdeferred
    · obtain ⟨offer, hoffer, rfl⟩ := List.mem_map.1 hoffered
      exact valid_of_receiveAll hrun hmiddle offer hoffer
  · intro concept hconcept hresolved
    obtain ⟨offer, hoffer, rfl⟩ := List.mem_map.1 hconcept
    have hheld : next.Holds offer.concept := by
      rcases List.mem_append.1 hoffer with hdeferred | hoffered
      · exact hcarries.holds (.inr ⟨offer, hdeferred, rfl⟩)
      · exact hrest.holds (hoffers offer hoffered)
    -- What is still deferred in the end waits for something, this concept does not.
    rcases hheld with hrepresents | ⟨other, hother, hsame⟩
    · exact hrepresents
    · exact absurd (hsame ▸ hresolved) (missing_of_retry hretry other hother)

theorem waiting_deferred_of_intake (h : run.intake settings offers = .ok next) :
    next.store.waiting (Offer.concepts next.deferred) = Offer.concepts next.deferred := by
  obtain ⟨middle, -, hretry⟩ := exists_of_bind_eq_ok h
  apply List.filter_eq_self.2
  intro concept hconcept
  obtain ⟨offer, hoffer, rfl⟩ := List.mem_map.1 hconcept
  exact Option.isSome_iff_ne_none.2 (missing_of_retry hretry offer hoffer)

theorem lands_of_intake (hrun : run.store.WellFormed) (hvalid : run.DeferredValid)
    (h : run.intake settings offers = .ok next) : Lands run offers next := by
  have hcarries := carries_of_intake hrun h
  have hgathers := gathers_of_intake hrun hvalid h
  -- A run that has ended was on the way to its own end all along.
  have hbegin : Approaches next.store (Offer.concepts (run.deferred ++ offers)) run offers :=
    approaches_of_below hrun (hcarries.grows.below hrun hcarries.wellFormed)
  have hwaiting :=
    (((throughout_approaches settings hcarries.wellFormed hgathers).intake hbegin).of_ok h).waiting
  rw [List.append_nil, waiting_deferred_of_intake h] at hwaiting
  exact ⟨hcarries, hgathers, hwaiting⟩

/-! ## What an intake leaves alone, and what it says of itself -/

/-- What is fixed while offers are taken in. -/
structure SameCounts (run next : Run) : Prop where
  phase : next.phase = run.phase
  seeds : next.stats.seeds = run.stats.seeds
  waves : next.stats.waves = run.stats.waves
  ruleInvocations : next.stats.ruleInvocations = run.stats.ruleInvocations
  reviewRounds : next.stats.reviewRounds = run.stats.reviewRounds

theorem sameCounts_of_intake (h : run.intake settings offers = .ok next) :
    SameCounts run next := by
  have hthroughout : Throughout settings (fun _ => True) fun next _ => SameCounts run next := by
    apply throughout_of_place
    · intro middle deferred deferrals hmiddle
      exact { hmiddle with }
    · intro middle next offer hmiddle hplace
      obtain ⟨admission, store, -, rfl⟩ := insert_of_place hplace
      cases admission <;> exact { hmiddle with }
  exact (hthroughout.intake ⟨rfl, rfl, rfl, rfl, rfl⟩).of_ok h

/-- An admission that changes a store leaves it with something to say that no store
below says. -/
theorem not_below_of_changed {store later : Store} {concept : Concept} {origin : Origin}
    {admission : Admission} (hstore : store.WellFormed) (hbelow : target.Below store)
    (htarget : target.WellFormed)
    (h : store.insert concept origin = .ok (admission, later))
    (hchanged : admission.changed = true) : ¬ later.Below target := by
  intro hlater
  have hconcept : store.Represents concept :=
    hbelow.represents_of htarget
      (hlater.represents_of (hstore.insert h) (hstore.represents_of_insert h))
  obtain ⟨id, hagain⟩ := hconcept.insert_eq hstore origin
  cases h.symm.trans hagain
  cases hchanged

/-- An intake that begins with nothing changed says so at its end exactly if the
store says no more than at the beginning. -/
theorem changed_eq_false_iff (hrun : run.store.WellFormed) (hbegin : run.changed = false)
    (h : run.intake settings offers = .ok next) :
    next.changed = false ↔ next.store.Below run.store := by
  have hthroughout : Throughout settings (fun _ => True) fun next _ =>
      next.store.WellFormed ∧ run.store.Below next.store ∧
        (next.changed = true → ¬ next.store.Below run.store) := by
    apply throughout_of_place
    · exact fun _ _ hmiddle => hmiddle
    · rintro middle next offer ⟨hmiddle, hbelow, hchanged⟩ hplace
      obtain ⟨admission, store, hinsert, rfl⟩ := insert_of_place hplace
      have hstore := hmiddle.insert hinsert
      have hgrown := (hmiddle.grows_insert hinsert).below hmiddle hstore
      rw [record_store, record_changed, Bool.or_eq_true]
      refine ⟨hstore, hbelow.trans hmiddle hgrown, fun hnow => ?_⟩
      rcases hnow with hearlier | hnow
      · exact fun hback => hchanged hearlier (hgrown.trans hstore hback)
      · exact not_below_of_changed hmiddle hbelow hrun hinsert hnow
  obtain ⟨-, -, hchanged⟩ := (hthroughout.intake
    ⟨hrun, .refl hrun, fun hnow => absurd (hbegin.symm.trans hnow) Bool.false_ne_true⟩).of_ok h
  constructor
  · intro hunchanged
    rw [((carries_of_intake hrun h).unchanged hunchanged).2.1]
    exact .refl hrun
  · intro hback
    exact Bool.eq_false_iff.2 fun hnow => hchanged hnow hback

/-! ## Two orders -/

/-- The states have the same contents and have done the same, but for the order of
admission: identifiers, origins and lineages may differ. -/
structure Akin (run run' : Run) : Prop where
  contents : run.store.SameContents run'.store
  deferred : (Offer.concepts run.deferred).Perm (Offer.concepts run'.deferred)
  fresh : (run.fresh.toList.map run.store.keyOf?).Perm
    (run'.fresh.toList.map run'.store.keyOf?)
  changed : run.changed = run'.changed
  phase : run.phase = run'.phase
  seeds : run.stats.seeds = run'.stats.seeds
  waves : run.stats.waves = run'.stats.waves
  ruleInvocations : run.stats.ruleInvocations = run'.stats.ruleInvocations
  reviewRounds : run.stats.reviewRounds = run'.stats.reviewRounds

namespace Akin

theorem refl (run : Run) : Akin run run :=
  ⟨.refl _, .refl _, .refl _, rfl, rfl, rfl, rfl, rfl, rfl⟩

theorem symm (h : Akin run run') : Akin run' run where
  contents := h.contents.symm
  deferred := h.deferred.symm
  fresh := h.fresh.symm
  changed := h.changed.symm
  phase := h.phase.symm
  seeds := h.seeds.symm
  waves := h.waves.symm
  ruleInvocations := h.ruleInvocations.symm
  reviewRounds := h.reviewRounds.symm

theorem deferredValid (h : Akin run run') (hvalid : run.DeferredValid) : run'.DeferredValid := by
  intro concept hconcept
  rw [← h.contents.schema]
  exact hvalid concept (h.deferred.mem_iff.2 hconcept)

theorem concepts_perm (h : Akin run run')
    (hoffers : (Offer.concepts offers).Perm (Offer.concepts offers')) :
    (Offer.concepts (run.deferred ++ offers)).Perm
      (Offer.concepts (run'.deferred ++ offers')) := by
  rw [Offer.concepts_append, Offer.concepts_append]
  exact h.deferred.append hoffers

/-- Nothing is fresh and nothing has changed when a batch begins. -/
theorem beginBatch (h : Akin run run') : Akin run.beginBatch run'.beginBatch :=
  { h with fresh := .nil, changed := rfl }

theorem mark (h : Akin run run') (stage : Stage) (ids ids' : List ConceptId) :
    Akin (run.mark stage ids) (run'.mark stage ids') :=
  { h with }

/-- What two orders add to stores with the same contents has the same keys. -/
theorem fresh_perm (hbegin : run.store.SameContents run'.store)
    (hend : next.store.SameContents next'.store)
    (hrun : run.store.WellFormed) (hrun' : run'.store.WellFormed)
    (hcarries : Carries run.beginBatch next) (hcarries' : Carries run'.beginBatch next')
    (happends : Appends run.beginBatch next) (happends' : Appends run'.beginBatch next') :
    (next.fresh.toList.map next.store.keyOf?).Perm
      (next'.fresh.toList.map next'.store.keyOf?) := by
  have hkept : ∀ {run next : Run}, run.store.WellFormed → Carries run.beginBatch next →
      run.store.ids.map next.store.keyOf? = run.store.ids.map run.store.keyOf? := by
    intro run next hrun hcarries
    exact List.map_congr_left fun id hid => hcarries.grows.keyOf? hrun hid
  have hall := hend.keyOf?_perm hcarries.wellFormed hcarries'.wellFormed
  rw [happends.ids_of_beginBatch, happends'.ids_of_beginBatch, List.map_append, List.map_append,
    hkept hrun hcarries, hkept hrun' hcarries'] at hall
  have hbefore := hbegin.keyOf?_perm hrun hrun'
  exact (List.perm_append_left_iff _).1 ((hbefore.symm.append_right _).trans hall)

/-- Two orders agree on whether there was anything to add. -/
theorem changed_eq (hbegin : run.store.SameContents run'.store)
    (hend : next.store.SameContents next'.store)
    (hrun : run.store.WellFormed) (hrun' : run'.store.WellFormed)
    (hnext : run.beginBatch.intake settings offers = .ok next)
    (hnext' : run'.beginBatch.intake settings offers' = .ok next') :
    next.changed = next'.changed := by
  have hbegun : run.beginBatch.store.WellFormed := hrun
  have hbegun' : run'.beginBatch.store.WellFormed := hrun'
  have hwellFormed := (carries_of_intake hbegun hnext).wellFormed
  have hwellFormed' := (carries_of_intake hbegun' hnext').wellFormed
  have hiff : next.changed = false ↔ next'.changed = false := by
    rw [changed_eq_false_iff hbegun rfl hnext, changed_eq_false_iff hbegun' rfl hnext']
    constructor
    · intro hback
      exact (hend.symm.below hwellFormed').trans hwellFormed (hback.trans hrun (hbegin.below hrun))
    · intro hback
      exact (hend.below hwellFormed).trans hwellFormed'
        (hback.trans hrun' (hbegin.symm.below hrun'))
  rwa [← Bool.not_eq_true, ← Bool.not_eq_true, not_iff_not, ← Bool.eq_iff_iff] at hiff

end Akin

/-- The stores on the way of one order stay below the one at which another order
ends. -/
theorem Akin.intake_below (hrun : run.store.WellFormed) (hrun' : run'.store.WellFormed)
    (hvalid : run.DeferredValid) (h : Akin run.beginBatch run'.beginBatch)
    (hoffers : (Offer.concepts offers).Perm (Offer.concepts offers'))
    (hnext : run.beginBatch.intake settings offers = .ok next) :
    Ends (TooDeep settings) (fun next' => next'.store.Below next.store)
      (run'.beginBatch.intake settings offers') := by
  have hbegin : run.beginBatch.store.WellFormed := hrun
  have hbegin' : run'.beginBatch.store.WellFormed := hrun'
  have hlands := lands_of_intake hbegin hvalid hnext
  have hbelow : run'.beginBatch.store.Below next.store :=
    (h.contents.symm.below hrun').trans hrun
      (hlands.carries.grows.below hbegin hlands.carries.wellFormed)
  have happroaches := (throughout_approaches settings hlands.carries.wellFormed
    (hlands.gathers.perm (h.concepts_perm hoffers).symm)).intake (approaches_of_below hbegin' hbelow)
  cases hnext' : run'.beginBatch.intake settings offers' with
  | error error => exact happroaches.of_error hnext'
  | ok next' => exact (happroaches.of_ok hnext').below

/-- From stores with the same contents an intake of the same concepts, in whatever
order, leads to the same contents or to a derivation chain that is too long. -/
theorem Akin.intake (hrun : run.store.WellFormed) (hrun' : run'.store.WellFormed)
    (hvalid : run.DeferredValid) (h : Akin run.beginBatch run'.beginBatch)
    (hoffers : (Offer.concepts offers).Perm (Offer.concepts offers'))
    (hnext : run.beginBatch.intake settings offers = .ok next) :
    Ends (TooDeep settings) (Akin next) (run'.beginBatch.intake settings offers') := by
  have hbegin : run.beginBatch.store.WellFormed := hrun
  have hbegin' : run'.beginBatch.store.WellFormed := hrun'
  have hvalid' : run'.beginBatch.DeferredValid := h.deferredValid hvalid
  have hbelow := h.intake_below hrun hrun' hvalid hoffers hnext
  cases hnext' : run'.beginBatch.intake settings offers' with
  | error error => exact hbelow.of_error hnext'
  | ok next' =>
      have hback := h.symm.intake_below hrun' hrun hvalid' hoffers.symm hnext'
      have hlands := lands_of_intake hbegin hvalid hnext
      have hlands' := lands_of_intake hbegin' hvalid' hnext'
      have hcontents : next.store.SameContents next'.store :=
        (hback.of_ok hnext).antisymm (hbelow.of_ok hnext')
          hlands.carries.wellFormed hlands'.carries.wellFormed
      have hcounts := sameCounts_of_intake hnext
      have hcounts' := sameCounts_of_intake hnext'
      exact
        { contents := hcontents
          deferred := by
            apply (hlands.deferred.trans _).trans hlands'.deferred.symm
            rw [hcontents.waiting hlands.carries.wellFormed hlands'.carries.wellFormed]
            exact (h.concepts_perm hoffers).filter _
          fresh := fresh_perm h.contents hcontents hrun hrun' hlands.carries hlands'.carries
            (appends_of_intake hnext) (appends_of_intake hnext')
          changed := changed_eq h.contents hcontents hrun hrun' hnext hnext'
          phase := by rw [hcounts.phase, hcounts'.phase, h.phase]
          seeds := by rw [hcounts.seeds, hcounts'.seeds, h.seeds]
          waves := by rw [hcounts.waves, hcounts'.waves, h.waves]
          ruleInvocations := by
            rw [hcounts.ruleInvocations, hcounts'.ruleInvocations, h.ruleInvocations]
          reviewRounds := by rw [hcounts.reviewRounds, hcounts'.reviewRounds, h.reviewRounds] }

/-! ## Two batches -/

theorem Akin.charged {jobs jobs' : List Job} (h : Akin run run')
    (hlength : jobs.length = jobs'.length) : Akin (run.charged jobs) (run'.charged jobs') :=
  { h with
    ruleInvocations := by
      show run.stats.ruleInvocations + _ = run'.stats.ruleInvocations + _
      rw [h.ruleInvocations, hlength] }

/-- Batches whose jobs answer alike, but for the order of the jobs and of the
concepts in each answer, lead to the same contents or to a derivation chain that is
too long. -/
theorem Akin.runBatch {jobs jobs' : List Job} (h : Akin run run')
    (hrun : run.store.WellFormed) (hrun' : run'.store.WellFormed)
    (haligned : run.Aligned) (haligned' : run'.Aligned) (hvalid : run.DeferredValid)
    (hsourced : run.Sourced jobs) (hsourced' : run'.Sourced jobs')
    (hjobs : Matches (Job.Akin run.store run'.store) jobs jobs')
    (hbatch : run.runBatch settings jobs = .ok next) :
    Ends (TooDeep settings) (Akin next) (run'.runBatch settings jobs') := by
  have hanswered := answered_of_runBatch hrun hsourced hbatch
  have hanswered' : run'.Answered jobs' := by
    intro job' hjob'
    obtain ⟨job, hjob, hakin⟩ := hjobs.exists_left hjob'
    obtain ⟨products, hproducts⟩ := hanswered job hjob
    obtain ⟨products', hproducts', -⟩ := hakin products hproducts
    exact ⟨products', hproducts'⟩
  have hoffers : (Offer.concepts (run.offered jobs)).Perm
      (Offer.concepts (run'.offered jobs')) := by
    rw [Offer.concepts, Offer.concepts, concepts_offered hsourced, concepts_offered hsourced']
    apply Matches.flatMap_perm
    apply hjobs.imp
    intro job hjob job' hakin
    obtain ⟨products, hproducts⟩ := hanswered job hjob
    obtain ⟨products', hproducts', hperm⟩ := hakin products hproducts
    rw [Job.products_of_answer hproducts, Job.products_of_answer hproducts']
    exact hperm
  have hbudget := (runBatch_ok_cases hbatch).1
  have hbudget' := hbudget
  rw [h.seeds, h.ruleInvocations, hjobs.length_eq] at hbudget'
  rw [runBatch_eq hrun haligned hsourced hanswered hbudget] at hbatch
  rw [runBatch_eq hrun' haligned' hsourced' hanswered' hbudget']
  have hcharged : (run.charged jobs).store.WellFormed := hrun
  have hcharged' : (run'.charged jobs').store.WellFormed := hrun'
  exact Akin.intake hcharged hcharged' hvalid (h.charged hjobs.length_eq).beginBatch hoffers hbatch

/-! ## What is deferred fits the schema -/

theorem Lands.deferredValid (h : Lands run offers next) : next.DeferredValid := by
  intro concept hconcept
  exact h.gathers.valid concept (List.mem_of_mem_filter (h.deferred.mem_iff.1 hconcept))

theorem deferredValid_of_runBatch {jobs : List Job} (hrun : run.store.WellFormed)
    (haligned : run.Aligned) (hvalid : run.DeferredValid) (hsourced : run.Sourced jobs)
    (hbatch : run.runBatch settings jobs = .ok next) : next.DeferredValid := by
  have hanswered := answered_of_runBatch hrun hsourced hbatch
  rw [runBatch_eq hrun haligned hsourced hanswered (runBatch_ok_cases hbatch).1] at hbatch
  have hbegin : (run.charged jobs).beginBatch.store.WellFormed := hrun
  exact (lands_of_intake hbegin hvalid hbatch).deferredValid

/-- In every state of a run all that is deferred fits the schema. -/
theorem Reachable.deferredValid {registry : Registry} {seeds : List Concept}
    (h : Reachable registry settings seeds run) : run.DeferredValid := by
  induction h with
  | start h =>
      have hempty : (beforeSeeds registry seeds.length).DeferredValid :=
        fun _ hconcept => absurd hconcept List.not_mem_nil
      exact (lands_of_intake (Store.wellFormed_empty _) hempty h).deferredValid
  | @step run next hrun h ih =>
      have hwellFormed := hrun.accounts.wellFormed
      cases move_of_step h with
      | turn | idle | rest => exact ih
      | @wave batch _ hbatch =>
          have hbegin : run.beginWave.store.WellFormed := hwellFormed
          have hbatch' : batch.DeferredValid := deferredValid_of_runBatch hbegin
            (aligned_mark hrun.aligned) ih (sourced_waveJobs registry _ _) hbatch
          exact hbatch'
      | @round batch _ hbatch =>
          have hbegin : run.beginReview.store.WellFormed := hwellFormed
          have hbatch' : batch.DeferredValid := deferredValid_of_runBatch hbegin
            hrun.aligned ih (sourced_reviewJobs registry hwellFormed) hbatch
          exact hbatch'

end Run

end ConceptExpansion
