/-
# Runs that take in whatever they are offered

A set of concepts is coherent if they can all be stored together: each fits the schema,
descriptions of one key agree, and there is room. An offer of such a concept is never
refused by a store that concepts of the set make up. It may have to wait for a key
reference, but a reference is smaller than the key that it is part of, so where every
reference leads to a concept of the set, trying again ends only when nothing waits.

A run whose rules stay within coherent sets can therefore be followed wave by wave, and
one knows of each state that it comprises the set: all of it is stored, and nothing else.
-/

import ConceptExpansion.Proofs.Run.Provenance
import ConceptExpansion.Proofs.Run.Spanning
import ConceptExpansion.Proofs.Store.Resolution

namespace ConceptExpansion

variable {concepts : Concept → Prop}

/-! ## Coherent sets -/

namespace Schema

variable {schema : Schema}

/-- The concepts of the set can all be stored together. -/
structure Coherent (schema : Schema) (concepts : Concept → Prop) : Prop where
  valid : ∀ {concept : Concept}, concepts concept → ∃ kind, schema.validate concept = .ok kind
  agree : ∀ {a b : Concept}, concepts a → concepts b → a.key = b.key →
    ∀ name, schema.isCumulative a.kind name = false → a.attribute? name = b.attribute? name
  fits : ∃ room : List Key, room.length ≤ Store.capacity ∧
    ∀ {concept : Concept}, concepts concept → concept.key ∈ room

/-- Part of a coherent set is coherent. -/
theorem Coherent.mono {concepts' : Concept → Prop} (h : schema.Coherent concepts')
    (hsubset : ∀ {concept : Concept}, concepts concept → concepts' concept) :
    schema.Coherent concepts where
  valid hconcept := h.valid (hsubset hconcept)
  agree ha hb := h.agree (hsubset ha) (hsubset hb)
  fits := by
    obtain ⟨room, hlength, hroom⟩ := h.fits
    exact ⟨room, hlength, fun hconcept => hroom (hsubset hconcept)⟩

/-- Key references of the set lead to concepts of the set, or need not lead anywhere. -/
def Closes (schema : Schema) (concepts : Concept → Prop) : Prop :=
  ∀ {concept : Concept}, concepts concept → ∀ target, concept.key.Mentions target →
    schema.isSink target.kind = true ∨ ∃ other, concepts other ∧ other.key = target

end Schema

namespace Store

variable {store : Store} {concept : Concept}

theorem SpannedBy.keys_subset (hspanned : store.SpannedBy concepts) (hstore : store.WellFormed)
    {room : List Key} (hroom : ∀ {concept : Concept}, concepts concept → concept.key ∈ room) :
    store.keys ⊆ room := by
  intro key hkey
  obtain ⟨source, hsource, rfl⟩ := hspanned.exists_of_mem_keys hstore hkey
  exact hroom hsource

/-- A store is no larger than the list in which all keys of the set are found. -/
theorem SpannedBy.size_le (hspanned : store.SpannedBy concepts) (hstore : store.WellFormed)
    {room : List Key} (hroom : ∀ {concept : Concept}, concepts concept → concept.key ∈ room) :
    store.size ≤ room.length := by
  rw [← hstore.length_keys]
  have hsubset := hspanned.keys_subset hstore hroom
  exact (List.subperm_of_subset store.nodup_keyList hsubset).length_le

/-- It is smaller than that if a concept of the set is not yet stored. -/
theorem SpannedBy.size_lt_length (hspanned : store.SpannedBy concepts) (hstore : store.WellFormed)
    {room : List Key} (hroom : ∀ {concept : Concept}, concepts concept → concept.key ∈ room)
    (hconcept : concepts concept) (hnew : store.find? concept.key = none) :
    store.size < room.length := by
  have hkey : concept.key ∉ store.keys := fun hkey => by
    obtain ⟨entry, hfind⟩ := hstore.mem_keys.1 hkey
    cases hnew.symm.trans hfind
  have hnodup : (concept.key :: store.keys).Nodup :=
    List.nodup_cons.2 ⟨hkey, store.nodup_keyList⟩
  have hsubset : concept.key :: store.keys ⊆ room :=
    List.cons_subset.2 ⟨hroom hconcept, hspanned.keys_subset hstore hroom⟩
  have hle := (List.subperm_of_subset hnodup hsubset).length_le
  rwa [List.length_cons, hstore.length_keys] at hle

/-- There is room for every concept of a coherent set that is not yet stored. -/
theorem SpannedBy.size_lt (hspanned : store.SpannedBy concepts) (hstore : store.WellFormed)
    (hcoherent : store.schema.Coherent concepts) (hconcept : concepts concept)
    (hnew : store.find? concept.key = none) : store.size < Store.capacity := by
  obtain ⟨room, hlength, hroom⟩ := hcoherent.fits
  exact (hspanned.size_lt_length hstore hroom hconcept hnew).trans_le hlength

/-- A store that concepts of a coherent set make up admits any other of them whose key
references lead somewhere. -/
theorem SpannedBy.exists_insert (hspanned : store.SpannedBy concepts) (hstore : store.WellFormed)
    (hcoherent : store.schema.Coherent concepts) (hconcept : concepts concept)
    (hmissing : store.missingTarget? concept = none) (origin : Origin) :
    ∃ admission next, store.insert concept origin = .ok (admission, next) := by
  obtain ⟨kind, hvalid⟩ := hcoherent.valid hconcept
  cases hfind : store.find? concept.key with
  | none =>
      have hsize := hspanned.size_lt hstore hcoherent hconcept hfind
      have hid : ConceptId.ofIndex? store.size = some ⟨store.size, hsize⟩ := dif_pos hsize
      exact ⟨_, _, insert_eq_ok_iff.2 ⟨kind, hvalid, hmissing, .admitted hid hfind⟩⟩
  | some entry =>
      obtain ⟨hget, hkey⟩ := hstore.find?_eq_some_iff.1 hfind
      obtain ⟨source, hsource, hsourceKey, hplain⟩ := (hspanned _ _ hget).plain
      have hsame : source.key = concept.key :=
        hsourceKey.trans ((hstore.concept_key hget).trans hkey)
      have hagree : kind.disagreement? entry.concept.payload concept.payload = none := by
        rw [KindDef.disagreement?_eq_none_iff]
        intro name hname
        have hkind : source.kind = concept.kind := congrArg Key.kind hsame
        have hkind' : entry.concept.kind = concept.kind :=
          (congrArg Key.kind hsourceKey).symm.trans hkind
        have hname' : store.schema.isCumulative concept.kind name = false :=
          (Schema.isCumulative_of_validate hvalid name).trans hname
        exact (hplain name (hkind' ▸ hname')).symm.trans
          (hcoherent.agree hsource hconcept hsame name (hkind ▸ hname'))
      by_cases hmerge : kind.merge entry.concept.payload concept.payload = entry.concept.payload
      · exact ⟨_, _, insert_eq_ok_iff.2
          ⟨kind, hvalid, hmissing, .alreadyPresent hfind hagree hmerge⟩⟩
      · exact ⟨_, _, insert_eq_ok_iff.2 ⟨kind, hvalid, hmissing, .merged hfind hagree hmerge⟩⟩

end Store

namespace Run

variable {registry : Registry} {settings : Settings} {seeds : List Concept} {run next : Run}
  {offers : List Offer} {depth : Nat}

/-! ## Taking in a coherent set -/

/-- What is stored and what is to come is of the set, and no derivation is longer than
`depth`. -/
structure Accepts (concepts : Concept → Prop) (depth : Nat) (run : Run) (rest : List Offer) :
    Prop where
  spanned : run.SpannedBy concepts
  depthOf : ∀ id, run.depthOf id ≤ depth
  deferred : ∀ offer ∈ run.deferred, offer.depth ≤ depth
  rest : ∀ offer ∈ rest, concepts offer.concept ∧ offer.depth ≤ depth

theorem depthOf_record_le {offer : Offer} {store : Store} {admission : Admission}
    (hrun : ∀ id, run.depthOf id ≤ depth) (hoffer : offer.depth ≤ depth) (id : ConceptId) :
    (run.record offer store admission).depthOf id ≤ depth := by
  cases admission with
  | alreadyPresent | merged => exact hrun id
  | admitted =>
      have hid := hrun id
      rw [depthOf_eq] at hid ⊢
      show ((run.lineage.push _)[id.index]?.map _).getD 0 ≤ depth
      rw [Array.getElem?_push]
      split
      · exact hoffer
      · exact hid

/-- Offers of a coherent set are never refused. -/
theorem throughout_accepts {schema : Schema} (hcoherent : schema.Coherent concepts)
    (hdepth : depth ≤ settings.maxDepth) :
    Throughout settings (fun _ => False) fun run rest =>
      run.store.schema = schema ∧ run.Accepts concepts depth rest where
  reject := by
    rintro run offer rest cause ⟨hschema, hrun⟩ hinvalid
    obtain ⟨hconcept, -⟩ := hrun.rest offer List.mem_cons_self
    obtain ⟨kind, hvalid⟩ := hcoherent.valid hconcept
    rw [hschema, hvalid] at hinvalid
    cases hinvalid
  defer := by
    rintro run offer rest target ⟨hschema, hrun⟩ - deferrals
    obtain ⟨hconcept, hoffer⟩ := hrun.rest offer List.mem_cons_self
    refine ⟨hschema, spannedBy_of_defer hrun.spanned hconcept _, hrun.depthOf, ?_, ?_⟩
    · intro other hother
      rcases List.mem_append.1 hother with hother | hother
      · exact hrun.deferred other hother
      · exact List.mem_singleton.1 hother ▸ hoffer
    · exact fun other hother => hrun.rest other (List.mem_cons_of_mem _ hother)
  place := by
    rintro run offer rest ⟨hschema, hrun⟩ hmissing
    obtain ⟨hconcept, hoffer⟩ := hrun.rest offer List.mem_cons_self
    obtain ⟨admission, store, hinsert⟩ := hrun.spanned.stored.exists_insert
      hrun.spanned.wellFormed (hschema ▸ hcoherent) hconcept hmissing offer.origin
    have hplace : run.place settings offer = .ok (run.record offer store admission) := by
      rw [place_eq, hinsert]
      exact if_neg fun hdeep => absurd hdeep.2 (by omega)
    rw [hplace]
    refine ⟨?_, spannedBy_of_place hrun.spanned hconcept hplace, ?_, ?_, ?_⟩
    · rw [record_store, (hrun.spanned.wellFormed.grows_insert hinsert).schema, hschema]
    · exact depthOf_record_le hrun.depthOf hoffer
    · rw [record_deferred]
      exact hrun.deferred
    · exact fun other hother => hrun.rest other (List.mem_cons_of_mem _ hother)
  pass := by
    rintro run ⟨hschema, hrun⟩
    have hempty : SpannedBy concepts { run with deferred := [] } :=
      ⟨hrun.spanned.wellFormed, hrun.spanned.stored, by simp⟩
    refine ⟨hschema, hempty, hrun.depthOf, by simp, fun offer hoffer => ?_⟩
    exact ⟨hrun.spanned.deferred offer hoffer, hrun.deferred offer hoffer⟩

/-! ## Nothing waits -/

/-- If all that waits does so for want of a key reference, and a closed set is held, then
it is stored. The induction is on the size of keys. -/
theorem represents_of_closes {schema : Schema} (hschema : run.store.schema = schema)
    (hclosed : schema.Closes concepts) (hrun : run.store.WellFormed)
    (hwaits : ∀ offer ∈ run.deferred, run.store.missingTarget? offer.concept ≠ none)
    (hholds : ∀ concept, concepts concept → run.Holds concept) :
    ∀ concept, concepts concept → run.store.Represents concept := by
  have hsized : ∀ size, ∀ concept, concepts concept → sizeOf concept.key = size →
      run.store.Represents concept := by
    intro size
    induction size using Nat.strong_induction_on with
    | _ size ih =>
        rintro concept hconcept rfl
        have hmissing : run.store.missingTarget? concept = none := by
          rw [Store.missingTarget?_eq_none_iff]
          intro target htarget
          rw [Concept.keyRefs_eq, Key.mem_refs_iff] at htarget
          unfold Store.resolvable
          rw [Bool.or_eq_true, hschema]
          obtain hsink | ⟨other, hother, rfl⟩ := hclosed hconcept target htarget
          · exact .inr hsink
          · obtain ⟨entry, hfind, -⟩ := ih _ htarget.sizeOf_lt other hother rfl
            exact .inl (hrun.contains_iff.2 ⟨entry, hfind⟩)
        obtain hrepresents | ⟨offer, hoffer, rfl⟩ := hholds concept hconcept
        · exact hrepresents
        · exact absurd hmissing (hwaits offer hoffer)
  exact fun concept hconcept => hsized _ concept hconcept rfl

/-- All of the set is stored and nothing else, nothing waits, and no derivation is longer
than `depth`. -/
structure Comprises (concepts : Concept → Prop) (depth : Nat) (run : Run) : Prop where
  spanned : run.SpannedBy concepts
  represents : ∀ concept, concepts concept → run.store.Represents concept
  deferred : run.deferred = []
  depthOf : ∀ id, run.depthOf id ≤ depth

theorem Comprises.congr {concepts' : Concept → Prop} (h : run.Comprises concepts depth)
    (hconcepts : ∀ concept, concepts concept ↔ concepts' concept) :
    run.Comprises concepts' depth where
  spanned := h.spanned.imp fun hconcept => (hconcepts _).1 hconcept
  represents concept hconcept := h.represents concept ((hconcepts concept).2 hconcept)
  deferred := h.deferred
  depthOf := h.depthOf

/-- To be told of a closed coherent set is to comprise it. -/
theorem comprises_of_intake {schema : Schema} (hschema : run.store.schema = schema)
    (hcoherent : schema.Coherent concepts) (hclosed : schema.Closes concepts)
    (hdepth : depth ≤ settings.maxDepth) (hbegin : run.Accepts concepts depth offers)
    (hall : ∀ concept, concepts concept →
      run.Holds concept ∨ ∃ offer ∈ offers, offer.concept = concept) :
    ∃ next, run.intake settings offers = .ok next ∧ next.Comprises concepts depth := by
  have hends := (throughout_accepts hcoherent hdepth).intake ⟨hschema, hbegin⟩
  cases hintake : run.intake settings offers with
  | error error => exact (hends.of_error hintake).elim
  | ok next =>
      obtain ⟨hschema', hnext⟩ := hends.of_ok hintake
      obtain ⟨offered, hoffered, hretry⟩ := exists_of_bind_eq_ok hintake
      obtain ⟨hfirst, hoffers⟩ := carries_of_foldlM carries_of_receive hbegin.spanned.wellFormed
        hoffered
      have hrest := carries_of_retry hfirst.wellFormed hretry
      have hholds : ∀ concept, concepts concept → next.Holds concept := by
        intro concept hconcept
        obtain hheld | ⟨offer, hoffer, rfl⟩ := hall concept hconcept
        · exact hrest.holds (hfirst.holds hheld)
        · exact hrest.holds (hoffers offer hoffer)
      have hwaits := missing_of_retry hretry
      have hrepresents := represents_of_closes hschema' hclosed hnext.spanned.wellFormed hwaits
        hholds
      refine ⟨next, rfl, hnext.spanned, hrepresents, ?_, hnext.depthOf⟩
      rw [List.eq_nil_iff_forall_not_mem]
      intro offer hoffer
      obtain ⟨entry, hfind, -⟩ := hrepresents _ (hnext.spanned.deferred offer hoffer)
      exact hwaits offer hoffer (hnext.spanned.wellFormed.missingTarget?_of_find? hfind)

/-! ## Seeds and waves -/

/-- A run over a closed coherent set of seeds begins, and comprises them. -/
theorem exists_start (hcoherent : registry.schema.Coherent (· ∈ seeds))
    (hclosed : registry.schema.Closes (· ∈ seeds)) :
    ∃ run, Run.start registry settings seeds = .ok run ∧ run.Comprises (· ∈ seeds) 0 := by
  have hbegin : (beforeSeeds registry seeds.length).Accepts (· ∈ seeds) 0
      (Offer.ofSeeds seeds) := by
    refine ⟨⟨Store.wellFormed_empty _, ?_, ?_⟩, fun _ => le_rfl, ?_, ?_⟩
    · exact fun _ _ hget => by cases hget
    · exact fun _ hoffer => by cases hoffer
    · exact fun _ hoffer => by cases hoffer
    · intro offer hoffer
      obtain ⟨position, seed, hseed, rfl⟩ := mem_ofSeeds.1 hoffer
      exact ⟨List.mem_of_getElem? hseed, le_rfl⟩
  refine comprises_of_intake rfl hcoherent hclosed (Nat.zero_le _) hbegin ?_
  intro seed hseed
  obtain ⟨position, hposition⟩ := List.mem_iff_getElem?.1 hseed
  exact .inr ⟨_, mem_ofSeeds.2 ⟨position, seed, hposition, rfl⟩, rfl⟩

/-- A rule answers with the concept, asked about a concept that was admitted last. -/
def Returns (registry : Registry) (run : Run) (concept : Concept) : Prop :=
  ∃ id ∈ run.fresh, ∃ entry, run.store.get? id = some entry ∧
    ∃ rule ∈ registry.rulesFor entry.concept.kind, ∃ products,
      rule.expand entry.concept run.store = .ok products ∧ concept ∈ products

/-- Every rule succeeds on every concept of its kind that was admitted last. -/
def Succeeds (registry : Registry) (run : Run) : Prop :=
  ∀ id ∈ run.fresh, ∀ entry, run.store.get? id = some entry →
    ∀ rule ∈ registry.rulesFor entry.concept.kind,
      ∃ products, rule.expand entry.concept run.store = .ok products

theorem exists_job_of_offered {begun : Run} {jobs : List Job} {offer : Offer}
    (h : offer ∈ begun.offered jobs) :
    ∃ job ∈ jobs, ∃ entry, begun.store.get? job.source = some entry ∧
      offer.concept ∈ job.products begun.store ∧
      offer.depth = begun.depthOf job.source + 1 := by
  obtain ⟨job, hjob, h⟩ := List.mem_flatMap.1 h
  split at h
  · next entry hentry =>
      obtain ⟨product, hproduct, rfl⟩ := List.mem_map.1 h
      exact ⟨job, hjob, entry, hentry, hproduct, rfl⟩
  · cases h

/-- What is put forward in a wave is what rules return. -/
theorem returns_of_offered {offer : Offer}
    (h : offer ∈ run.beginWave.offered (run.beginWave.waveJobs registry run.wave)) :
    run.Returns registry offer.concept := by
  obtain ⟨job, hjob, entry, hentry, hproduct, -⟩ := exists_job_of_offered h
  obtain ⟨hsource, other, hother, hrule⟩ := mem_waveJobs.1 hjob
  obtain rfl : entry = other := Option.some.inj (hentry.symm.trans hother)
  refine ⟨job.source, mem_wave.1 hsource, entry, hentry, job.rule, hrule, ?_⟩
  unfold Job.products at hproduct
  split at hproduct
  · next products hanswer =>
      exact ⟨products, (Job.answer_of_get? hentry).symm.trans hanswer, hproduct⟩
  · cases hproduct

theorem exists_offered_of_returns {concept : Concept} (h : run.Returns registry concept) :
    ∃ offer ∈ run.beginWave.offered (run.beginWave.waveJobs registry run.wave),
      offer.concept = concept := by
  obtain ⟨id, hid, entry, hentry, rule, hrule, products, hproducts, hproduct⟩ := h
  have hjob : (⟨id, rule⟩ : Job) ∈ run.beginWave.waveJobs registry run.wave :=
    mem_waveJobs.2 ⟨mem_wave.2 hid, entry, hentry, hrule⟩
  have hanswer : (⟨id, rule⟩ : Job).answer run.store = .ok products :=
    (Job.answer_of_get? hentry).trans hproducts
  rw [← List.mem_map, concepts_offered (sourced_waveJobs registry run.beginWave run.wave)]
  exact List.mem_flatMap.2 ⟨_, hjob, (Job.products_of_answer hanswer).symm ▸ hproduct⟩

/-- A wave that the budget covers and whose rules all succeed goes on to comprise what
they return as well, if that leaves a closed coherent set. -/
theorem Comprises.exists_wave {concepts' : Concept → Prop} (hrun : run.Comprises concepts depth)
    (hreach : Reachable registry settings seeds run) (hphase : run.phase = .expanding)
    (hfresh : run.fresh ≠ #[]) (hsucceeds : run.Succeeds registry)
    (hconcepts : ∀ concept, concepts' concept ↔
      concepts concept ∨ run.Returns registry concept)
    (hcoherent : registry.schema.Coherent concepts') (hclosed : registry.schema.Closes concepts')
    (hdepth : depth < settings.maxDepth)
    (hbudget : (run.waveJobs registry run.wave).length ≤ run.budgetLeft settings) :
    ∃ next, run.step registry settings = .ok next ∧ next.phase = .expanding ∧
      next.Comprises concepts' (depth + 1) ∧
      next.store.ids = run.store.ids ++ next.fresh.toList ∧
      next.budgetLeft settings =
        run.budgetLeft settings - (run.waveJobs registry run.wave).length := by
  have hwellFormed : run.beginWave.store.WellFormed := hrun.spanned.wellFormed
  have haligned : run.beginWave.Aligned := aligned_mark hreach.aligned
  have hanswered : run.beginWave.Answered (run.beginWave.waveJobs registry run.wave) := by
    intro job hjob
    obtain ⟨hsource, entry, hentry, hrule⟩ := mem_waveJobs.1 hjob
    rw [Job.answer_of_get? hentry]
    exact hsucceeds _ (mem_wave.1 hsource) entry hentry job.rule hrule
  have hintake := runBatch_eq hwellFormed haligned
    (sourced_waveJobs registry run.beginWave run.wave) hanswered hbudget
  have hspanned : run.SpannedBy concepts' :=
    hrun.spanned.imp fun hconcept => (hconcepts _).2 (.inl hconcept)
  have hbegin : (run.beginWave.charged
      (run.beginWave.waveJobs registry run.wave)).beginBatch.Accepts concepts' (depth + 1)
        (run.beginWave.offered (run.beginWave.waveJobs registry run.wave)) := by
    have hdepthOf : ∀ id, run.beginWave.depthOf id ≤ depth := fun id =>
      (depthOf_mark _ .expanding run.wave id).trans_le (hrun.depthOf id)
    refine ⟨{ hspanned with }, fun id => (hdepthOf id).trans (Nat.le_succ _), ?_, ?_⟩
    · show ∀ offer ∈ run.deferred, _
      rw [hrun.deferred]
      exact fun _ hoffer => absurd hoffer List.not_mem_nil
    · intro offer hoffer
      refine ⟨(hconcepts _).2 (.inr (returns_of_offered hoffer)), ?_⟩
      obtain ⟨job, -, -, -, -, hdeep⟩ := exists_job_of_offered hoffer
      rw [hdeep]
      exact Nat.succ_le_succ (hdepthOf _)
  have hschema : (run.beginWave.charged
      (run.beginWave.waveJobs registry run.wave)).beginBatch.store.schema = registry.schema :=
    hreach.accounts.schema
  obtain ⟨batch, hbatch, hcomprises⟩ := comprises_of_intake hschema hcoherent hclosed
    (Nat.succ_le_of_lt hdepth) hbegin fun concept hconcept =>
      ((hconcepts concept).1 hconcept).imp (fun hold => .inl (hrun.represents concept hold))
        exists_offered_of_returns
  have hrunBatch := hintake.trans hbatch
  have hstep : run.step registry settings = .ok (batch.mark .expanded run.wave) :=
    (step_wave hphase hfresh).trans (bind_of_eq_ok hrunBatch _)
  obtain ⟨hseeds, -, hinvocations, -⟩ := runBatch_ok hrunBatch
  have hexpanding : batch.phase = .expanding := phase_of_wave hphase hrunBatch
  refine ⟨_, hstep, hexpanding, ?_, ?_, ?_⟩
  · refine ⟨{ hcomprises.spanned with }, hcomprises.represents, hcomprises.deferred, fun id => ?_⟩
    exact (depthOf_mark _ _ _ id).trans_le (hcomprises.depthOf id)
  · exact (appends_of_wave hrun.spanned.wellFormed hreach.aligned hrunBatch).ids_of_beginBatch
  · show settings.budget batch.stats.seeds - batch.stats.ruleInvocations = _
    rw [hseeds, hinvocations]
    exact Nat.sub_add_eq _ _ _

end Run

end ConceptExpansion
