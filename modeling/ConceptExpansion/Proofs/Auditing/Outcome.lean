/-
# What domain models expand to

Once a run over a domain model has gone through two waves, its store is complete, and it
can be described concept by concept: the seeds, for every monitored entity what monitoring
brings in and a log with all properties of the entity, and the common audit log. A complete
store is saturated and leaves no reference loose, so the run settles with it and yields a
model. The rules are never asked without an answer and offers never refused, so there is
nothing else that an expansion of a domain model can end with.
-/

import ConceptExpansion.Proofs.Auditing.Waves
import ConceptExpansion.Proofs.Run.Quiescence
import ConceptExpansion.Proofs.Store.Completeness

namespace ConceptExpansion.Auditing

variable {seeds : List Concept} {owner : Key} {concept : Concept} {store earlier : Store}
  {entry : Entry} {run : Run}

/-! ## The description -/

/-- What a domain model is to expand to, with these properties in the store. -/
inductive Specified (seeds : List Concept) (store : Store) : Concept → Prop
  | seed {seed : Concept} (h : seed ∈ seeds) : Specified seeds store seed
  | createdAt {owner : Key} (h : monitored owner ∈ seeds) :
      Specified seeds store (property owner createdAtName timeTypeName)
  | creationTime {owner : Key} (h : monitored owner ∈ seeds) :
      Specified seeds store (creationTime (property owner createdAtName timeTypeName).key)
  | denyUserEdit {owner : Key} (h : monitored owner ∈ seeds) :
      Specified seeds store (denyUserEdit (property owner createdAtName timeTypeName).key)
  /-- The log of a monitored entity lists references to its properties, ascending. -/
  | log {owner : Key} (h : monitored owner ∈ seeds) {items : List Value}
      (hascending : Value.Ascending items)
      (hitems : ∀ x, x ∈ items ↔ RefersToProperty store owner x) :
      Specified seeds store ((entityLogging owner).setAttribute auditedName (.list items))
  | allProperties {owner : Key} (h : monitored owner ∈ seeds) :
      Specified seeds store (allPropertiesLogging (entityLogging owner).key)
  | target {owner : Key} (h : monitored owner ∈ seeds) :
      Specified seeds store (logTarget (entityLogging owner).key (auditLog commonLogName).key)
  | common {owner : Key} (h : monitored owner ∈ seeds) :
      Specified seeds store (auditLog commonLogName)

theorem Specified.arising (hmodel : DomainModel seeds) (h : Specified seeds store concept) :
    Arising seeds concept := by
  cases h with
  | seed h => exact hmodel.arising h
  | createdAt h => exact .createdAt h
  | creationTime h => exact .creationTime h
  | denyUserEdit h => exact .denyUserEdit h
  | log h => exact .audit h _
  | allProperties h => exact .allProperties h
  | target h => exact .target h
  | common h => exact .common h

/-- Apart from logs, what completes a model is what is specified. -/
theorem specified_iff_completed (hkind : concept.kind ≠ entityLoggingKind) :
    Specified seeds store concept ↔ Completed seeds earlier concept := by
  constructor
  · intro h
    have hmonitoring : ∀ {owner : Key} {concept : Concept}, monitored owner ∈ seeds →
        concept ∈ monitoring owner → Completed seeds earlier concept :=
      fun howner hconcept => .inl (.inr ⟨_, howner, hconcept⟩)
    have hlogging : ∀ {owner : Key} {concept : Concept}, monitored owner ∈ seeds →
        concept ∈ logging (entityLogging owner).key → Completed seeds earlier concept :=
      fun howner hconcept => .inr ⟨_, howner, .inl hconcept⟩
    cases h with
    | seed h => exact .inl (.inl h)
    | createdAt h => exact hmonitoring h (mem_monitoring_iff.2 (.inl rfl))
    | creationTime h => exact hmonitoring h (mem_monitoring_iff.2 (.inr (.inl rfl)))
    | denyUserEdit h => exact hmonitoring h (mem_monitoring_iff.2 (.inr (.inr (.inl rfl))))
    | log => exact absurd rfl hkind
    | allProperties h => exact hmonitoring h (by simp [mem_monitoring_iff])
    | target h => exact hlogging h (mem_logging_iff.2 (.inr rfl))
    | common h => exact hlogging h (mem_logging_iff.2 (.inl rfl))
  · rintro ((hseed | ⟨owner, howner, hmonitoring⟩) | ⟨owner, howner, hlogging | hauditing⟩)
    · exact .seed hseed
    · obtain rfl | rfl | rfl | rfl | rfl := mem_monitoring_iff.1 hmonitoring
      · exact .createdAt howner
      · exact .creationTime howner
      · exact .denyUserEdit howner
      · exact absurd rfl hkind
      · exact .allProperties howner
    · obtain rfl | rfl := mem_logging_iff.1 hlogging
      · exact .common howner
      · exact .target howner
    · obtain ⟨-, rfl⟩ := mem_auditing.1 hauditing
      exact absurd rfl hkind

/-- What is no log is stored as it was offered. -/
theorem eq_of_represents (hstore : store.WellFormed) (hschema : store.schema = standard.schema)
    (hconcept : store.Represents concept) (hentry : entry ∈ store.entries)
    (hkey : concept.key = entry.key) (hkind : concept.kind ≠ entityLoggingKind) :
    entry.concept = concept := by
  have hwithin := hconcept.within hstore hentry hkey
  refine (Concept.eq_of_attributes hwithin.key fun name => hwithin.plain name ?_).symm
  rw [hschema, ← Bool.not_eq_true, isCumulative_standard]
  exact fun h => hkind h.1

theorem entityLogging_inj {owner owner' : Key}
    (h : (entityLogging owner).key = (entityLogging owner').key) : owner = owner' := by
  have hfields : [owner.toValue] = [owner'.toValue] := congrArg Key.fields h
  exact Key.toValue_injective (List.singleton_inj.1 hfields)

/-- A log is only ever told of properties that were stored when the rule was asked. -/
theorem Completed.exists_property (h : Completed seeds earlier concept)
    (hmodel : DomainModel seeds) (hkey : concept.key = (entityLogging owner).key) {x : Value}
    (hx : x ∈ Value.contributed (concept.attribute? auditedName)) :
    ∃ property ∈ earlier.withFirstField propertyKind owner, x = property.concept.reference := by
  have hkind : concept.kind = entityLoggingKind := congrArg Key.kind hkey
  obtain (hseed | ⟨other, -, hmonitoring⟩) | ⟨other, -, hlogging | hauditing⟩ := h
  · cases hmodel.modelled concept hseed <;> exact absurd hkind (ne_of_beq_false rfl)
  · obtain rfl | rfl | rfl | rfl | rfl := mem_monitoring_iff.1 hmonitoring
    · exact absurd hkind (ne_of_beq_false rfl)
    · exact absurd hkind (ne_of_beq_false rfl)
    · exact absurd hkind (ne_of_beq_false rfl)
    · cases hx
    · exact absurd hkind (ne_of_beq_false rfl)
  · obtain rfl | rfl := mem_logging_iff.1 hlogging <;>
      exact absurd hkind (ne_of_beq_false rfl)
  · obtain ⟨-, rfl⟩ := mem_auditing.1 hauditing
    obtain rfl : other = owner := entityLogging_inj hkey
    rw [contributed_logOf, List.mem_map] at hx
    obtain ⟨property, hproperty, rfl⟩ := hx
    exact ⟨property, hproperty, rfl⟩

/-- The only attribute of a stored log is what it audits. -/
theorem eq_log_of_represents (hstore : store.WellFormed) (hschema : store.schema = standard.schema)
    {properties : List Entry} (hlog : store.Represents (logOf owner properties))
    (hentry : entry ∈ store.entries) (hkey : (logOf owner properties).key = entry.key) :
    ∃ items, entry.concept = (entityLogging owner).setAttribute auditedName (.list items) ∧
      Value.Ascending items ∧ items = Value.contributed (entry.concept.attribute? auditedName) := by
  have hwithin := hlog.within hstore hentry hkey
  have hcumulative : store.schema.isCumulative entityLoggingKind auditedName = true := by
    rw [hschema]
    exact isCumulative_standard.2 ⟨rfl, rfl⟩
  have hget := hstore.get?_of_mem hentry
  obtain ⟨value, hvalue⟩ := Option.isSome_iff_exists.1
    (hwithin.present auditedName hcumulative rfl)
  obtain ⟨items, rfl, hascending⟩ :=
    hstore.isSet_of_cumulative hget (hwithin.kind ▸ hcumulative) hvalue
  refine ⟨items, Concept.eq_of_attributes hwithin.key.symm fun name => ?_, hascending, ?_⟩
  · rw [Concept.attribute?_setAttribute]
    split
    · next hname =>
        subst hname
        exact hvalue
    · next hname =>
        have hplain : store.schema.isCumulative entityLoggingKind name = false := by
          rw [hschema, ← Bool.not_eq_true, isCumulative_standard]
          exact fun h => hname h.2
        refine (hwithin.plain name hplain).symm.trans ?_
        exact (Concept.attribute?_setAttribute _ _ _ _).trans (if_neg hname)
  · rw [hvalue]
    rfl

/-- A state of a run over a domain model in which everything has been brought in; the
properties are those that the logs have been told of. -/
structure Complete (seeds : List Concept) (run : Run) : Prop where
  model : DomainModel seeds
  schema : run.store.schema = standard.schema
  comprises : ∃ earlier depth, earlier.WellFormed ∧
    run.Comprises (Completed seeds earlier) depth ∧
    ∀ owner x, RefersToProperty earlier owner x ↔ RefersToProperty run.store owner x

namespace Complete

theorem wellFormed (h : Complete seeds run) : run.store.WellFormed := by
  obtain ⟨_, _, _, hrun, _⟩ := h.comprises
  exact hrun.spanned.wellFormed

theorem spanned (h : Complete seeds run) : run.store.SpannedBy (Arising seeds) := by
  obtain ⟨_, _, _, hrun, _⟩ := h.comprises
  exact (hrun.spanned.imp fun hconcept => hconcept.arising h.model).stored

/-- The log of a monitored entity lists all properties of it. -/
theorem exists_items (h : Complete seeds run) (howner : monitored owner ∈ seeds)
    (hentry : entry ∈ run.store.entries) (hkey : entry.key = (entityLogging owner).key) :
    ∃ items, entry.concept = (entityLogging owner).setAttribute auditedName (.list items) ∧
      Value.Ascending items ∧ ∀ x, x ∈ items ↔ RefersToProperty run.store owner x := by
  obtain ⟨earlier, depth, hearlier, hrun, hsame⟩ := h.comprises
  have hstore := hrun.spanned.wellFormed
  -- One of the properties is that for the time of creation, so the log was told of some.
  have hcreatedAt : RefersToProperty earlier owner (createdAt owner).reference := by
    rw [hsame, refersToProperty_iff hrun]
    have hprepared : Prepared seeds (createdAt owner) :=
      .inr ⟨owner, howner, mem_monitoring_iff.2 (.inl rfl)⟩
    exact ⟨createdAt owner, .inl hprepared, rfl, rfl, rfl⟩
  obtain ⟨property, hproperty, -⟩ := (mem_withFirstField_iff hearlier).2 hcreatedAt
  have htold : Completed seeds earlier (logOf owner (earlier.withFirstField propertyKind owner)) :=
    .inr ⟨owner, howner, .inr (mem_auditing.2 ⟨List.ne_nil_of_mem hproperty, rfl⟩)⟩
  have hlog := hrun.represents _ htold
  have hwithin := hlog.within hstore hentry hkey.symm
  have hcumulative : run.store.schema.isCumulative entityLoggingKind auditedName = true := by
    rw [h.schema]
    exact isCumulative_standard.2 ⟨rfl, rfl⟩
  obtain ⟨items, hconcept, hascending, hitems⟩ :=
    eq_log_of_represents hstore h.schema hlog hentry hkey.symm
  refine ⟨items, hconcept, hascending, fun x => ?_⟩
  rw [← hsame, ← mem_withFirstField_iff hearlier, hitems]
  constructor
  · intro hx
    obtain ⟨source, hsource, hsourceKey, hx⟩ :=
      (hrun.spanned.stored _ _ (hstore.get?_of_mem hentry)).items auditedName
        (hwithin.kind ▸ hcumulative) x hx
    exact hsource.exists_property h.model (hsourceKey.trans hwithin.key.symm) hx
  · rintro ⟨property, hproperty, rfl⟩
    apply hwithin.items auditedName hcumulative
    rw [contributed_logOf]
    exact List.mem_map_of_mem hproperty

/-- What completes the model is stored. -/
theorem represents (h : Complete seeds run) (hspecified : Specified seeds run.store concept)
    (hkind : concept.kind ≠ entityLoggingKind) : run.store.Represents concept := by
  obtain ⟨earlier, depth, -, hrun, -⟩ := h.comprises
  exact hrun.represents _ ((specified_iff_completed hkind).1 hspecified)

/-- Every monitored entity has a log. -/
theorem exists_log (h : Complete seeds run) (howner : monitored owner ∈ seeds) :
    ∃ entry ∈ run.store.entries, entry.key = (entityLogging owner).key := by
  obtain ⟨earlier, depth, -, hrun, -⟩ := h.comprises
  have hprepared : Prepared seeds (entityLogging owner) :=
    .inr ⟨owner, howner, by simp [mem_monitoring_iff]⟩
  obtain ⟨entry, hentry, hkey, -⟩ :=
    (hrun.represents _ (.inl hprepared)).exists_entry h.wellFormed
  exact ⟨entry, hentry, hkey⟩

/-- Every entry of a log is that of a monitored entity. -/
theorem log_of_entry (h : Complete seeds run) (hentry : entry ∈ run.store.entries)
    (hkind : entry.concept.kind = entityLoggingKind) :
    ∃ owner, monitored owner ∈ seeds ∧ entry.key = (entityLogging owner).key := by
  obtain ⟨source, hsource, hkey⟩ := h.spanned.exists_key h.wellFormed hentry
  have hconcept := h.wellFormed.concept_key_of_mem hentry
  have hsourceKind : source.kind = entityLoggingKind :=
    (congrArg Key.kind (hkey.trans hconcept.symm)).trans hkind
  obtain ⟨owner, howner, hlog⟩ := hsource.exists_of_entityLoggingKind hsourceKind
  exact ⟨owner, howner, hkey.symm.trans hlog⟩

/-- Only what is specified is stored. -/
theorem specified_of_entry (h : Complete seeds run) (hentry : entry ∈ run.store.entries) :
    Specified seeds run.store entry.concept := by
  have hconcept := h.wellFormed.concept_key_of_mem hentry
  by_cases hkind : entry.concept.kind = entityLoggingKind
  · obtain ⟨owner, howner, hkey⟩ := h.log_of_entry hentry hkind
    obtain ⟨items, hlog, hascending, hitems⟩ := h.exists_items howner hentry hkey
    rw [hlog]
    exact .log howner hascending hitems
  · obtain ⟨earlier, depth, -, hrun, -⟩ := h.comprises
    obtain ⟨source, hsource, hkey⟩ := hrun.spanned.stored.exists_key h.wellFormed hentry
    have hsourceKind : source.kind ≠ entityLoggingKind := fun hsourceKind =>
      hkind ((congrArg Key.kind (hconcept.trans hkey.symm)).trans hsourceKind)
    rw [eq_of_represents h.wellFormed h.schema (hrun.represents _ hsource) hentry hkey hsourceKind]
    exact (specified_iff_completed hsourceKind).2 hsource

/-- The concepts of the store are those that are specified. -/
theorem exists_entry_iff (h : Complete seeds run) :
    (∃ entry ∈ run.store.entries, entry.concept = concept) ↔
      Specified seeds run.store concept := by
  constructor
  · rintro ⟨entry, hentry, rfl⟩
    exact h.specified_of_entry hentry
  · intro hspecified
    by_cases hkind : concept.kind = entityLoggingKind
    · cases hspecified with
      | log howner hascending hitems =>
          obtain ⟨entry, hentry, hkey⟩ := h.exists_log howner
          obtain ⟨items, hconcept, hascending', hitems'⟩ := h.exists_items howner hentry hkey
          refine ⟨entry, hentry, ?_⟩
          rw [hconcept, hascending'.eq_of_mem_iff hascending fun x =>
            (hitems' x).trans (hitems x).symm]
      | seed hseed => cases h.model.modelled _ hseed <;> exact absurd hkind (ne_of_beq_false rfl)
      | _ => exact absurd hkind (ne_of_beq_false rfl)
    · have hrepresents := h.represents hspecified hkind
      obtain ⟨entry, hentry, hkey, -⟩ := hrepresents.exists_entry h.wellFormed
      exact ⟨entry, hentry,
        eq_of_represents h.wellFormed h.schema hrepresents hentry hkey.symm hkind⟩

/-- No answer of a rule adds anything. -/
theorem saturated (h : Complete seeds run) : run.store.Saturated standard := by
  intro entry hentry rule hrule
  obtain ⟨earlier, depth, -, hrun, -⟩ := h.comprises
  obtain ⟨howner, -, hanswer⟩ | ⟨howner, -, hanswer⟩ | @⟨owner, howner, -, hanswer⟩ :=
    answers_of_arising h.wellFormed h.spanned hentry hrule
  · exact ⟨_, hanswer, fun product hproduct =>
      hrun.represents _ (.inl (.inr ⟨_, howner, hproduct⟩))⟩
  · exact ⟨_, hanswer, fun product hproduct =>
      hrun.represents _ (.inr ⟨_, howner, .inl hproduct⟩)⟩
  · refine ⟨_, hanswer, fun product hproduct => ?_⟩
    obtain ⟨-, rfl⟩ := mem_auditing.1 hproduct
    obtain ⟨log, hlog, hkey⟩ := h.exists_log howner
    obtain ⟨items, hconcept, -, hitems⟩ := h.exists_items howner hlog hkey
    have hget := h.wellFormed.get?_of_mem hlog
    refine ⟨log, h.wellFormed.find?_eq_some_iff.2 ⟨hget, hkey⟩, ?_⟩
    rw [hconcept, h.schema]
    apply Schema.within_setAttribute (isCumulative_standard.2 ⟨rfl, rfl⟩)
    intro x hx
    obtain ⟨property, hproperty, rfl⟩ := List.mem_map.1 hx
    exact (hitems _).2 ((mem_withFirstField_iff h.wellFormed).1 ⟨property, hproperty, rfl⟩)

/-- An attribute of a stored concept refers to a data type or to a stored property. -/
theorem resolves_of_attribute (h : Complete seeds run) (hentry : entry ∈ run.store.entries)
    {name : String} {value : Value} (hvalue : entry.concept.attribute? name = some value)
    {target : Key} (htarget : value.Mentions target) : run.store.Resolves target := by
  have harising := (h.specified_of_entry hentry).arising h.model
  by_cases hproperty : entry.concept.kind = propertyKind
  · obtain ⟨owner, propertyName, type, hconcept, -⟩ := harising.exists_of_propertyKind hproperty
    rw [hconcept, attribute?_property] at hvalue
    split at hvalue
    · obtain rfl := Option.some.inj hvalue
      obtain rfl := Value.mentions_toValue_iff.1 htarget
      rw [Store.Resolves, h.schema]
      exact .inr ⟨_, rfl, rfl⟩
    · cases hvalue
  · by_cases hlog : entry.concept.kind = entityLoggingKind
    · obtain ⟨owner, howner, hkey⟩ := h.log_of_entry hentry hlog
      obtain ⟨items, hconcept, -, hitems⟩ := h.exists_items howner hentry hkey
      rw [hconcept, Concept.attribute?_setAttribute] at hvalue
      split at hvalue
      · obtain rfl := Option.some.inj hvalue
        cases htarget with
        | item hitem htarget =>
            obtain ⟨property, hproperty, -, -, rfl⟩ := (hitems _).1 hitem
            obtain rfl := Value.mentions_toValue_iff.1 htarget
            have hget := h.wellFormed.get?_of_mem hproperty
            exact .inl ⟨property, hproperty, (h.wellFormed.concept_key hget).symm⟩
      · cases hvalue
    · have hplain : standard.schema.isCumulative entry.concept.kind name = false := by
        rw [← Bool.not_eq_true, isCumulative_standard]
        exact fun h => hlog h.1
      cases hvalue.symm.trans (harising.attribute?_eq_none hproperty hplain)

/-- Every reference leads somewhere. -/
theorem dangling_eq_nil (h : Complete seeds run) : run.store.dangling = [] := by
  rw [h.wellFormed.dangling_eq_nil_iff_mentions]
  rintro entry hentry target (hfield | ⟨name, value, hvalue, htarget⟩)
  · have hget := h.wellFormed.get?_of_mem hentry
    have hmentions : entry.key.Mentions target := h.wellFormed.concept_key hget ▸ hfield
    exact h.wellFormed.resolvable_iff.1 (h.wellFormed.resolvable_of_mentions hget hmentions)
  · exact h.resolves_of_attribute hentry hvalue htarget

end Complete

/-! ## The run -/

/-- The sets of the stages are subsets of what arises, so there is room for them. -/
theorem size_le_of_arising (hrun : run.store.WellFormed)
    (hspanned : run.store.SpannedBy (Arising seeds)) :
    run.store.size ≤ (arisingKeys seeds).dedup.length :=
  hspanned.size_le hrun fun h => List.mem_dedup.2 h.key_mem

/-- The default budget is enough to ask four times about all that arises. -/
theorem le_budget (hfits : (arisingKeys seeds).dedup.length < Store.capacity) :
    4 * (arisingKeys seeds).dedup.length ≤ Settings.budget {} seeds.length := by
  have hdedup := (List.dedup_sublist (arisingKeys seeds)).length_le
  have hle : (arisingKeys seeds).length ≤ 8 * seeds.length := length_arisingKeys_le
  unfold Settings.budget Settings.maxCount
  unfold Store.capacity at hfits
  dsimp only
  omega

/-- A seed is neither a log nor a wish to audit everything. -/
theorem DomainModel.kind_of_seed (hmodel : DomainModel seeds) (h : concept ∈ seeds) :
    concept.kind ≠ entityLoggingKind ∧ concept.kind ≠ allPropertiesLoggingKind := by
  cases hmodel.modelled concept h <;> exact ⟨ne_of_beq_false rfl, ne_of_beq_false rfl⟩

/-- A run over a domain model begins by storing the seeds. -/
theorem DomainModel.exists_start (hmodel : DomainModel seeds)
    (hfits : (arisingKeys seeds).dedup.length < Store.capacity) (settings : Settings) :
    ∃ run, Run.start standard settings seeds = .ok run ∧ run.Comprises (· ∈ seeds) 0 ∧
      ∀ id ∈ run.store.ids, id ∈ run.fresh := by
  have hcoherent := (Arising.coherent hmodel hfits).mono fun h => hmodel.arising h
  obtain ⟨run, hstart, hrun⟩ : ∃ run, Run.start standard settings seeds = .ok run ∧
      run.Comprises (· ∈ seeds) 0 := Run.exists_start hcoherent hmodel.closes
  refine ⟨run, hstart, hrun, fun id hid => ?_⟩
  exact Array.mem_toList_iff.1 ((Run.tally_of_start hstart).stored.mem_iff.2 hid)

/-- The first wave brings in what monitoring amounts to, and the logs are new then. -/
theorem DomainModel.exists_prepared_run (hmodel : DomainModel seeds)
    (hfits : (arisingKeys seeds).dedup.length < Store.capacity)
    (howner : monitored owner ∈ seeds) :
    ∃ run, Run.Reachable standard {} seeds run ∧ run.phase = .expanding ∧
      run.Comprises (Prepared seeds) 1 ∧
      (∀ {id : ConceptId} {entry : Entry}, run.store.get? id = some entry →
        entry.key.kind = entityLoggingKind ∨ entry.key.kind = allPropertiesLoggingKind →
          id ∈ run.fresh) ∧
      3 * (arisingKeys seeds).dedup.length ≤ run.budgetLeft {} := by
  have hbudget := le_budget hfits
  obtain ⟨run, hstart, hrun, hfresh⟩ := hmodel.exists_start hfits {}
  have hreach : Run.Reachable standard {} seeds run := .start hstart
  have hstore := hrun.spanned.wellFormed
  have hspanned := hrun.spanned.imp fun h => hmodel.arising h
  have hsize := size_le_of_arising hstore hspanned.stored
  have hjobs := hreach.length_waveJobs_le length_rulesFor_standard_le
  have hleft := Run.budgetLeft_of_start hstart
  have hne : run.fresh ≠ #[] := fun hempty => by
    obtain ⟨entry, hentry, -, -⟩ := (hrun.represents _ howner).exists_entry hstore
    have hid := hfresh _ (hstore.mem_ids.2 ⟨entry, hstore.get?_of_mem hentry⟩)
    rw [hempty] at hid
    exact Array.not_mem_empty _ hid
  obtain ⟨next, hstep, hphase, hnext, hids, hleft'⟩ := hrun.exists_wave hreach
    (Run.phase_of_start hstart) hne (succeeds_of_arising hstore hspanned.stored)
    (fun concept => or_congr_right (returns_iff_of_seeds hmodel hrun hfresh).symm)
    ((Arising.coherent hmodel hfits).mono fun h => Prepared.arising hmodel h)
    hmodel.closes_prepared (by decide) (by omega)
  refine ⟨next, .step hreach hstep, hphase, hnext, fun {id entry} hget hkind => ?_, by omega⟩
  have hid : id ∈ run.store.ids ++ next.fresh.toList :=
    hids ▸ hnext.spanned.wellFormed.mem_ids.2 ⟨entry, hget⟩
  obtain hold | hnew := List.mem_append.1 hid
  · -- What was stored before has the key of a seed.
    obtain ⟨before, hbefore⟩ := hstore.mem_ids.1 hold
    obtain ⟨-, hgrows, -⟩ := Run.keeps_of_move hstore (Run.move_of_step hstep)
    obtain ⟨later, hlater, hkey, -⟩ := hgrows.entry hbefore
    obtain rfl : later = entry := Option.some.inj (hlater.symm.trans hget)
    obtain ⟨seed, hseed, hseedKey⟩ :=
      hrun.spanned.stored.exists_key hstore (Array.mem_of_getElem? hbefore)
    have hseedKind : seed.kind = later.key.kind := congrArg Key.kind (hseedKey.trans hkey.symm)
    obtain ⟨hlog, hwish⟩ := hmodel.kind_of_seed hseed
    exact (hkind.elim (fun h => hlog (hseedKind.trans h)) fun h => hwish (hseedKind.trans h)).elim
  · exact Array.mem_toList_iff.1 hnew

/-- A run over a domain model comes to a state in which everything has been brought in, and
the budget that is left to it is enough to ask twice more about all that is stored. -/
theorem DomainModel.exists_complete (hmodel : DomainModel seeds)
    (hfits : (arisingKeys seeds).dedup.length < Store.capacity) :
    ∃ run, Run.Reachable standard {} seeds run ∧ run.phase = .expanding ∧ run.deferred = [] ∧
      Complete seeds run ∧ 2 * run.store.size ≤ run.budgetLeft {} := by
  by_cases hmonitored : ∃ owner, monitored owner ∈ seeds
  · obtain ⟨owner, howner⟩ := hmonitored
    obtain ⟨run, hreach, hphase, hrun, hfresh, hleft⟩ := hmodel.exists_prepared_run hfits howner
    have hstore := hrun.spanned.wellFormed
    have hspanned := hrun.spanned.imp fun h => Prepared.arising hmodel h
    have hsize := size_le_of_arising hstore hspanned.stored
    have hjobs := hreach.length_waveJobs_le length_rulesFor_standard_le
    have hne : run.fresh ≠ #[] := fun hempty => by
      have hlog : Prepared seeds (entityLogging owner) :=
        .inr ⟨owner, howner, by simp [mem_monitoring_iff]⟩
      obtain ⟨entry, hentry, hkey, -⟩ := (hrun.represents _ hlog).exists_entry hstore
      have hid := hfresh (hstore.get?_of_mem hentry) (.inl (congrArg Key.kind hkey))
      rw [hempty] at hid
      exact Array.not_mem_empty _ hid
    obtain ⟨next, hstep, hphase', hnext, -, hleft'⟩ := hrun.exists_wave hreach hphase hne
      (succeeds_of_arising hstore hspanned.stored)
      (fun concept => completed_iff_of_prepared hmodel hrun hfresh)
      ((Arising.coherent hmodel hfits).mono fun h => Completed.arising hmodel h)
      (hmodel.closes_completed run.store) (by decide) (by omega)
    have hspanned' := hnext.spanned.imp fun h => Completed.arising hmodel h
    have hsize' := size_le_of_arising hspanned'.wellFormed hspanned'.stored
    have hreach' := hreach.step hstep
    refine ⟨next, hreach', hphase', hnext.deferred, ⟨hmodel, hreach'.accounts.schema, ?_⟩, by omega⟩
    refine ⟨run.store, 2, hstore, hnext, fun owner x => ?_⟩
    rw [refersToProperty_iff hrun, refersToProperty_iff hnext]
    constructor
    · rintro ⟨property, hproperty, hlast⟩
      exact ⟨property, .inl hproperty, hlast⟩
    · rintro ⟨property, hproperty, hkind, hlast⟩
      exact ⟨property, hproperty.prepared hkind, hkind, hlast⟩
  · obtain ⟨run, hstart, hrun, -⟩ := hmodel.exists_start hfits {}
    have hreach : Run.Reachable standard {} seeds run := .start hstart
    have hstore := hrun.spanned.wellFormed
    have hspanned := hrun.spanned.imp fun h => hmodel.arising h
    have hsize := size_le_of_arising hstore hspanned.stored
    have hleft := Run.budgetLeft_of_start hstart
    have hbudget := le_budget hfits
    have hcompleted : run.Comprises (Completed seeds run.store) 0 := by
      refine hrun.congr fun concept => ⟨fun h => .inl (.inl h), ?_⟩
      rintro ((hseed | ⟨owner, howner, -⟩) | ⟨owner, howner, -⟩)
      · exact hseed
      · exact absurd ⟨owner, howner⟩ hmonitored
      · exact absurd ⟨owner, howner⟩ hmonitored
    refine ⟨run, hreach, Run.phase_of_start hstart, hrun.deferred,
      ⟨hmodel, hreach.accounts.schema, ?_⟩, by omega⟩
    exact ⟨run.store, 0, hstore, hcompleted, fun _ _ => .rfl⟩

/-- A domain model expands, to a model with the store of a complete state. -/
theorem DomainModel.exists_model (hmodel : DomainModel seeds)
    (hfits : (arisingKeys seeds).dedup.length < Store.capacity) :
    ∃ model run, standard.expand {} seeds = .ok model ∧ Complete seeds run ∧
      model.store = run.store ∧ model.order = run.store.precedence := by
  obtain ⟨run, hreach, hphase, hdeferred, hcomplete, hleft⟩ := hmodel.exists_complete hfits
  have hwave := hreach.length_waveJobs_le length_rulesFor_standard_le
  have hreading : ∀ kind, (standard.readingRulesFor kind).length ≤ 1 := fun kind =>
    (List.length_filter_le _ _).trans (length_rulesFor_standard_le kind)
  have hround := Run.length_jobs_le hreading hcomplete.wellFormed
  obtain ⟨last, hlast, hrests, -⟩ := hreach.toFixpoint_of_saturated hphase hcomplete.saturated
    hdeferred (by omega)
  have hloose : last.loose? = none := by
    rw [Run.loose?_eq_none_iff, hrests.deferred, hrests.store]
    exact ⟨hdeferred, hcomplete.dangling_eq_nil⟩
  obtain ⟨model, hfinish⟩ : ∃ model, last.finish = .ok model :=
    ⟨_, Run.finish_eq_ok_iff.2 ⟨hloose, rfl⟩⟩
  obtain ⟨-, hstore, horder, -⟩ := Run.finish_ok hfinish
  rw [hrests.store] at hstore horder
  refine ⟨model, run, ?_, hcomplete, hstore, horder⟩
  rw [hreach.expand_eq, bind_of_eq_ok hlast]
  exact hfinish

/-- The seeds of a domain model expand. The model holds one concept for each of its keys,
and these are the concepts that are specified; the common audit log is one of them exactly
if some entity is monitored. -/
theorem expand_domainModel : ∃ registry, Auditing.registry = .ok registry ∧
    ∀ seeds, DomainModel seeds → (arisingKeys seeds).dedup.length < Store.capacity →
      ∃ model, registry.expand {} seeds = .ok model ∧ (model.concepts.map (·.key)).Nodup ∧
        (∀ concept, concept ∈ model.concepts ↔ Specified seeds model.store concept) ∧
        ((∃ concept ∈ model.concepts, concept.key = (auditLog commonLogName).key) ↔
          ∃ owner, monitored owner ∈ seeds) := by
  refine ⟨standard, registry_eq, fun seeds hmodel hfits => ?_⟩
  obtain ⟨model, run, hexpand, hcomplete, hstore, horder⟩ := hmodel.exists_model hfits
  have hwellFormed := hcomplete.wellFormed
  have hconcepts : model.concepts.Perm (run.store.entries.toList.map (·.concept)) := by
    unfold Model.concepts Model.entries
    rw [horder, hstore]
    exact hwellFormed.filterMap_precedence_perm.map _
  have hspecified : ∀ concept, concept ∈ model.concepts ↔ Specified seeds model.store concept := by
    intro concept
    rw [hstore, ← hcomplete.exists_entry_iff, hconcepts.mem_iff, List.mem_map]
    simp only [Array.mem_toList_iff]
  refine ⟨model, hexpand, ?_, hspecified, ?_⟩
  · have hkeys : run.store.entries.toList.map (·.concept.key) =
        run.store.entries.toList.map (·.key) := List.map_congr_left fun entry hentry =>
      hwellFormed.concept_key_of_mem (Array.mem_toList_iff.1 hentry)
    rw [(hconcepts.map _).nodup_iff, List.map_map]
    show (run.store.entries.toList.map (·.concept.key)).Nodup
    rw [hkeys]
    exact hwellFormed.nodup_keys
  · constructor
    · rintro ⟨concept, hconcept, hkey⟩
      exact (((hspecified concept).1 hconcept).arising hmodel).exists_of_auditLogKind
        (congrArg Key.kind hkey)
    · rintro ⟨owner, howner⟩
      exact ⟨_, (hspecified _).2 (.common howner), rfl⟩

end ConceptExpansion.Auditing

/-! ## A bookshop -/

namespace ConceptExpansion.Auditing.Bookshop

/-- The books. -/
def book : Concept :=
  entity "Shop" "Book"

/-- Books are monitored and have a title, which is said twice and before there are books; the
authors are left alone. -/
def seeds : List Concept :=
  [monitored book.key, property book.key "Title" "String", book, entity "Shop" "Author",
    property book.key "Title" "String"]

theorem modelled : ∀ seed ∈ seeds, Modelled seeds seed := by
  have hbook : SeededEntity seeds book.key := ⟨_, _, by decide, rfl⟩
  intro seed hseed
  simp only [seeds, List.mem_cons, List.not_mem_nil, or_false] at hseed
  obtain rfl | rfl | rfl | rfl | rfl := hseed
  · exact .monitored hbook
  · exact .property hbook _ _
  · exact .entity _ _
  · exact .entity _ _
  · exact .property hbook _ _

theorem domainModel : DomainModel seeds := by
  have htype : ∀ seed ∈ seeds, seed.kind = propertyKind →
      seed = property book.key "Title" "String" := by decide
  have hstring : ∀ {owner : Key} {name type : String}, property owner name type ∈ seeds →
      name = "Title" ∧ type = "String" := fun h => by
    obtain ⟨-, hname, htype⟩ := property_inj (htype _ h rfl)
    exact ⟨hname, htype⟩
  exact
    { modelled := modelled
      type_eq := fun h h' => (hstring h).2.trans (hstring h').2.symm
      time := fun _ h => absurd (hstring h).1 (by decide) }

/-- There are books, and an author to be; the title and the time of creation are audited. -/
theorem expand_bookshop : ∃ registry, Auditing.registry = .ok registry ∧
    ∃ model, registry.expand {} seeds = .ok model ∧ (model.concepts.map (·.key)).Nodup ∧
      (∀ concept, concept ∈ model.concepts ↔ Specified seeds model.store concept) ∧
      ∃ concept ∈ model.concepts, concept.key = (auditLog commonLogName).key := by
  obtain ⟨registry, hregistry, hexpand⟩ := expand_domainModel
  obtain ⟨model, hmodel, hkeys, hspecified, hcommon⟩ := hexpand seeds domainModel (by decide)
  refine ⟨registry, hregistry, model, hmodel, hkeys, hspecified, hcommon.2 ⟨book.key, ?_⟩⟩
  decide

end ConceptExpansion.Auditing.Bookshop
