/-
# What rules answer while a domain model is expanded

As long as the store is made up of what arises from a domain model, every rule is asked
about something that it was made for, and its answer is known in advance: the first wave
brings in what monitoring amounts to, the second one completes it. Properties all come
before the second wave, so the logs are told of every one of them.
-/

import ConceptExpansion.Proofs.Auditing.DomainModels

namespace ConceptExpansion

namespace Auditing

variable {seeds : List Concept} {owner : Key} {concept : Concept} {store earlier : Store}
  {entry : Entry} {rule : Rule} {run : Run}

theorem length_rulesFor_standard_le (kind : String) : (standard.rulesFor kind).length ≤ 1 := by
  rw [rulesFor_standard]
  split_ifs <;> simp

/-! ## Answers in stores of domain models -/

theorem monitoredRule_expand_of_key (hkey : concept.key = (monitored owner).key)
    (hkind : owner.kind = entityKind) :
    monitoredRule.expand concept store = .ok (monitoring owner) := by
  have hfields : concept.fields = [owner.toValue] := congrArg Key.fields hkey
  refine monitoredRule_expand_eq_ok_iff.2 ⟨owner, ?_, hkind, rfl⟩
  rw [Concept.field?, hfields]
  rfl

theorem entityLoggingRule_expand_of_key (hkey : concept.key = (entityLogging owner).key) :
    entityLoggingRule.expand concept store = .ok (logging (entityLogging owner).key) := by
  have hfields : concept.fields = [owner.toValue] := congrArg Key.fields hkey
  refine entityLoggingRule_expand_eq_ok_iff.2 ⟨owner, ?_, hkey ▸ rfl⟩
  rw [Concept.field?, hfields]
  rfl

theorem allPropertiesLoggingRule_expand_of_key
    (hkey : concept.key = (allPropertiesLogging (entityLogging owner).key).key) :
    allPropertiesLoggingRule.expand concept store =
      .ok (auditing owner (store.withFirstField propertyKind owner)) := by
  have hfields : concept.fields = [(entityLogging owner).key.toValue] := congrArg Key.fields hkey
  refine allPropertiesLoggingRule_expand_eq_ok_iff.2
    ⟨owner, ⟨(entityLogging owner).key, ?_, rfl⟩, rfl⟩
  rw [Concept.field?, hfields]
  rfl

theorem SeededEntity.kind_eq (h : SeededEntity seeds owner) : owner.kind = entityKind := by
  obtain ⟨moduleName, name, -, rfl⟩ := h
  rfl

/-- A rule is asked about a monitored entity, about its log or about the wish to audit
everything, and answers in every case. -/
inductive Answers (seeds : List Concept) (store : Store) (entry : Entry) (rule : Rule) : Prop
  | monitoring {owner : Key} (howner : monitored owner ∈ seeds)
      (hkey : entry.key = (monitored owner).key)
      (h : rule.expand entry.concept store = .ok (monitoring owner))
  | logging {owner : Key} (howner : monitored owner ∈ seeds)
      (hkey : entry.key = (entityLogging owner).key)
      (h : rule.expand entry.concept store = .ok (logging (entityLogging owner).key))
  | auditing {owner : Key} (howner : monitored owner ∈ seeds)
      (hkey : entry.key = (allPropertiesLogging (entityLogging owner).key).key)
      (h : rule.expand entry.concept store =
        .ok (auditing owner (store.withFirstField propertyKind owner)))

theorem answers_of_arising (hstore : store.WellFormed)
    (hspanned : store.SpannedBy (Arising seeds)) (hentry : entry ∈ store.entries)
    (hrule : rule ∈ standard.rulesFor entry.concept.kind) : Answers seeds store entry rule := by
  obtain ⟨source, hsource, hkey⟩ := hspanned.exists_key hstore hentry
  have hconcept := hstore.concept_key_of_mem hentry
  have hkind : source.kind = entry.concept.kind := congrArg Key.kind (hkey.trans hconcept.symm)
  obtain ⟨hentryKind, rfl⟩ | ⟨hentryKind, rfl⟩ | ⟨hentryKind, rfl⟩ := mem_rulesFor_standard.1 hrule
  · obtain ⟨owner, hentity, howner, rfl⟩ := hsource.exists_of_monitoredKind (hkind.trans hentryKind)
    exact .monitoring howner hkey.symm
      (monitoredRule_expand_of_key (hconcept.trans hkey.symm) hentity.kind_eq)
  · obtain ⟨owner, howner, hlog⟩ :=
      hsource.exists_of_entityLoggingKind (hkind.trans hentryKind)
    exact .logging howner (hkey.symm.trans hlog)
      (entityLoggingRule_expand_of_key (hconcept.trans (hkey.symm.trans hlog)))
  · obtain ⟨owner, howner, rfl⟩ :=
      hsource.exists_of_allPropertiesLoggingKind (hkind.trans hentryKind)
    exact .auditing howner hkey.symm
      (allPropertiesLoggingRule_expand_of_key (hconcept.trans hkey.symm))

/-! ## The waves -/

theorem succeeds_of_arising (hrun : run.store.WellFormed)
    (hspanned : run.store.SpannedBy (Arising seeds)) : run.Succeeds standard := by
  intro id _ entry hentry rule hrule
  obtain ⟨-, -, h⟩ | ⟨-, -, h⟩ | ⟨-, -, h⟩ :=
    answers_of_arising hrun hspanned (Array.mem_of_getElem? hentry) hrule
  all_goals exact ⟨_, h⟩

/-- No rule returns anything but what is to come. -/
theorem completed_of_returns (hrun : run.store.WellFormed)
    (hspanned : run.store.SpannedBy (Arising seeds)) (h : run.Returns standard concept) :
    Completed seeds run.store concept := by
  obtain ⟨id, -, entry, hentry, rule, hrule, products, hproducts, hproduct⟩ := h
  obtain ⟨howner, -, h⟩ | ⟨howner, -, h⟩ | ⟨howner, -, h⟩ :=
    answers_of_arising hrun hspanned (Array.mem_of_getElem? hentry) hrule
  all_goals obtain rfl := Except.ok.inj (hproducts.symm.trans h)
  · exact .inl (.inr ⟨_, howner, hproduct⟩)
  · exact .inr ⟨_, howner, .inl hproduct⟩
  · exact .inr ⟨_, howner, .inr hproduct⟩

/-- A rule of its kind returns what it answers about a concept that was admitted last. -/
theorem returns_of_represents {source : Concept} {products : List Concept}
    (hrun : run.store.WellFormed) (hsource : run.store.Represents source)
    (hfresh : ∀ {id : ConceptId} {entry : Entry}, run.store.get? id = some entry →
      entry.key = source.key → id ∈ run.fresh)
    (hrule : rule ∈ standard.rulesFor source.kind)
    (hexpand : ∀ {concept : Concept}, concept.key = source.key →
      rule.expand concept run.store = .ok products)
    (hconcept : concept ∈ products) : run.Returns standard concept := by
  obtain ⟨entry, hentry, hkey, hwithin⟩ := hsource.exists_entry hrun
  have hget := hrun.get?_of_mem hentry
  exact ⟨entry.id, hfresh hget hkey, entry, hget, rule, hwithin.kind ▸ hrule, products,
    hexpand hwithin.key.symm, hconcept⟩

/-- While only seeds are stored, rules return what monitoring amounts to. -/
theorem returns_iff_of_seeds (hmodel : DomainModel seeds) (hrun : run.Comprises (· ∈ seeds) 0)
    (hfresh : ∀ id ∈ run.store.ids, id ∈ run.fresh) :
    run.Returns standard concept ↔
      ∃ owner, monitored owner ∈ seeds ∧ concept ∈ monitoring owner := by
  have hstore := hrun.spanned.wellFormed
  constructor
  · rintro ⟨id, -, entry, hentry, rule, hrule, products, hproducts, hproduct⟩
    have hmem := Array.mem_of_getElem? hentry
    have hspanned := hrun.spanned.imp fun h => hmodel.arising h
    obtain ⟨seed, hseed, hkey⟩ := hrun.spanned.stored.exists_key hstore hmem
    have hkind : ∀ {key : Key}, entry.key = key → seed.kind = key.kind := fun h =>
      congrArg Key.kind (hkey.trans h)
    have hmodelled := hmodel.modelled seed hseed
    obtain ⟨howner, -, h⟩ | ⟨-, hlog, -⟩ | ⟨-, hwish, -⟩ :=
      answers_of_arising hstore hspanned.stored hmem hrule
    · obtain rfl := Except.ok.inj (hproducts.symm.trans h)
      exact ⟨_, howner, hproduct⟩
    · have hseedKind := hkind hlog
      cases hmodelled <;> exact absurd hseedKind (ne_of_beq_false rfl)
    · have hseedKind := hkind hwish
      cases hmodelled <;> exact absurd hseedKind (ne_of_beq_false rfl)
  · rintro ⟨owner, howner, hconcept⟩
    have hrule : monitoredRule ∈ standard.rulesFor (monitored owner).kind :=
      mem_rulesFor_standard.2 (.inl ⟨rfl, rfl⟩)
    refine returns_of_represents hstore (hrun.represents _ howner) ?_ hrule ?_ hconcept
    · exact fun hget _ => hfresh _ (hstore.mem_ids.2 ⟨_, hget⟩)
    · exact fun hkey => monitoredRule_expand_of_key hkey (hmodel.seededEntity howner).kind_eq

/-- Once everything is prepared and the logs are new, rules return what completes it. -/
theorem completed_iff_of_prepared (hmodel : DomainModel seeds)
    (hrun : run.Comprises (Prepared seeds) 1)
    (hfresh : ∀ {id : ConceptId} {entry : Entry}, run.store.get? id = some entry →
      entry.key.kind = entityLoggingKind ∨ entry.key.kind = allPropertiesLoggingKind →
        id ∈ run.fresh) :
    Completed seeds run.store concept ↔
      Prepared seeds concept ∨ run.Returns standard concept := by
  have hstore := hrun.spanned.wellFormed
  have hspanned := hrun.spanned.imp fun h => h.arising hmodel
  constructor
  · rintro (hprepared | ⟨owner, howner, hlogging | hauditing⟩)
    · exact .inl hprepared
    · have hlog : Prepared seeds (entityLogging owner) :=
        .inr ⟨owner, howner, by simp [mem_monitoring_iff]⟩
      have hrule : entityLoggingRule ∈ standard.rulesFor (entityLogging owner).kind :=
        mem_rulesFor_standard.2 (.inr (.inl ⟨rfl, rfl⟩))
      right
      refine returns_of_represents hstore (hrun.represents _ hlog) ?_ hrule ?_ hlogging
      · exact fun hget hkey => hfresh hget (.inl (congrArg Key.kind hkey))
      · exact entityLoggingRule_expand_of_key
    · have hwish : Prepared seeds (allPropertiesLogging (entityLogging owner).key) :=
        .inr ⟨owner, howner, by simp [mem_monitoring_iff]⟩
      have hrule : allPropertiesLoggingRule ∈
          standard.rulesFor (allPropertiesLogging (entityLogging owner).key).kind :=
        mem_rulesFor_standard.2 (.inr (.inr ⟨rfl, rfl⟩))
      right
      refine returns_of_represents hstore (hrun.represents _ hwish) ?_ hrule ?_ hauditing
      · exact fun hget hkey => hfresh hget (.inr (congrArg Key.kind hkey))
      · exact allPropertiesLoggingRule_expand_of_key
  · rintro (hprepared | hreturns)
    · exact .inl hprepared
    · exact completed_of_returns hstore hspanned.stored hreturns

/-! ## Properties of the entities -/

/-- A state refers to the properties of the set that it comprises. -/
theorem refersToProperty_iff {concepts : Concept → Prop} {depth : Nat} {x : Value}
    (hrun : run.Comprises concepts depth) :
    RefersToProperty run.store owner x ↔ ∃ property, concepts property ∧
      property.kind = propertyKind ∧ property.fields.head? = some owner.toValue ∧
        x = property.reference := by
  have hstore := hrun.spanned.wellFormed
  constructor
  · rintro ⟨entry, hentry, hkind, hfirst, rfl⟩
    obtain ⟨source, hsource, hkey⟩ := hrun.spanned.stored.exists_key hstore hentry
    have hconcept := hstore.concept_key_of_mem hentry
    refine ⟨source, hsource, (congrArg Key.kind hkey).trans hkind, ?_, ?_⟩
    · exact (congrArg (·.fields.head?) hkey).trans hfirst
    · exact congrArg Key.toValue (hconcept.trans hkey.symm)
  · rintro ⟨property, hproperty, hkind, hfirst, rfl⟩
    obtain ⟨entry, hentry, hkey, hwithin⟩ := (hrun.represents _ hproperty).exists_entry hstore
    refine ⟨entry, hentry, ?_, ?_, congrArg Key.toValue hwithin.key⟩
    · exact (congrArg Key.kind hkey).trans hkind
    · exact (congrArg (·.fields.head?) hkey).trans hfirst

/-- What completes a model brings in no more properties. -/
theorem Completed.prepared (h : Completed seeds store concept)
    (hkind : concept.kind = propertyKind) : Prepared seeds concept := by
  obtain hprepared | ⟨owner, -, hlogging | hauditing⟩ := h
  · exact hprepared
  · obtain rfl | rfl := mem_logging_iff.1 hlogging <;>
      exact absurd hkind (ne_of_beq_false rfl)
  · obtain ⟨-, rfl⟩ := mem_auditing.1 hauditing
    exact absurd hkind (ne_of_beq_false rfl)

end Auditing

end ConceptExpansion
