/-
# Audit lists are exact

The list of audited properties in an entity log comes from two sources. Seeds may bring
items of their own, whatever these are. And if there is a wish to audit everything, the
properties of the entity are added. A property may appear long after its log, and the
wish may appear after both, so no single answer of the rule is complete; but a run only
settles when a round of review has changed nothing, and in that round the rule has read
the store that the model is made of.

Nothing else is listed. Every item was brought in by a seed or by an answer that the rule
gave at some point of the run. What it saw then is still stored, under the same keys.
-/

import ConceptExpansion.Proofs.Auditing.Outcome
import ConceptExpansion.Proofs.Expansion.ReadingRules
import ConceptExpansion.Proofs.Run.Spanning

namespace ConceptExpansion.Auditing

variable {settings : Settings} {seeds : List Concept} {run : Run} {store later : Store}
  {entity : Key} {concept : Concept} {x : Value}

/-- A stored wish asks for every property of the entity. -/
def WishedFor (store : Store) (entity : Key) : Prop :=
  ∃ entry ∈ store.entries, entry.key.kind = allPropertiesLoggingKind ∧
    Wishes entry.concept entity

/-- Whoever wishes does so on the strength of the key. -/
theorem Wishes.congr {other : Concept} (h : Wishes concept entity)
    (hkey : other.key = concept.key) : Wishes other entity := by
  have hfields : other.fields = concept.fields := congrArg Key.fields hkey
  unfold Wishes Concept.field? at h ⊢
  rwa [hfields]

/-- What is stored stays, and references go by the key. -/
theorem RefersToProperty.grows (h : RefersToProperty store entity x) (hgrows : store.Grows later)
    (hstore : store.WellFormed) : RefersToProperty later entity x := by
  obtain ⟨entry, hentry, hkind, hfirst, rfl⟩ := h
  obtain ⟨kept, hkept, hkey, -, hwithin⟩ := hgrows.entry (hstore.get?_of_mem hentry)
  refine ⟨kept, Array.mem_of_getElem? hkept, hkey ▸ hkind, hkey ▸ hfirst, ?_⟩
  exact congrArg Key.toValue hwithin.key

theorem WishedFor.grows (h : WishedFor store entity) (hgrows : store.Grows later)
    (hstore : store.WellFormed) : WishedFor later entity := by
  obtain ⟨entry, hentry, hkind, hwishes⟩ := h
  obtain ⟨kept, hkept, hkey, -, hwithin⟩ := hgrows.entry (hstore.get?_of_mem hentry)
  exact ⟨kept, Array.mem_of_getElem? hkept, hkey ▸ hkind, hwishes.congr hwithin.key.symm⟩

/-- What a log of the entity that has arisen in a run contributes comes from a seed, or
refers to a property of the entity, for which there is a wish. -/
theorem audited_of_arisen (h : Run.Arisen standard settings seeds store concept)
    (hkey : concept.key = (entityLogging entity).key)
    (hx : x ∈ Value.contributed (concept.attribute? auditedName)) :
    concept ∈ seeds ∨ WishedFor store entity ∧ RefersToProperty store entity x := by
  cases h with
  | seed hseed => exact .inl hseed
  | @product earlier id source rule products _ hearlier hgrows hsource hrule hproducts hproduct =>
      have hstore := hearlier.accounts.wellFormed
      have hkind : concept.kind = entityLoggingKind := congrArg Key.kind hkey
      obtain ⟨-, rfl⟩ | ⟨-, rfl⟩ | ⟨hsourceKind, rfl⟩ := mem_rulesFor_standard.1 hrule
      · -- Monitoring brings in a log that audits nothing.
        obtain ⟨monitored, -, -, rfl⟩ := monitoredRule_expand_eq_ok_iff.1 hproducts
        simp only [monitoring, List.mem_cons, List.not_mem_nil, or_false] at hproduct
        obtain rfl | rfl | rfl | rfl | rfl := hproduct
        case inr.inr.inr.inl => cases hx
        all_goals exact absurd hkind (ne_of_beq_false rfl)
      · -- Logging brings in no log of an entity at all.
        obtain ⟨-, -, rfl⟩ := entityLoggingRule_expand_eq_ok_iff.1 hproducts
        simp only [logging, List.mem_cons, List.not_mem_nil, or_false] at hproduct
        obtain rfl | rfl := hproduct
        all_goals exact absurd hkind (ne_of_beq_false rfl)
      · obtain ⟨wished, hwishes, rfl⟩ := allPropertiesLoggingRule_expand_eq_ok_iff.1 hproducts
        obtain ⟨-, rfl⟩ := mem_auditing.1 hproduct
        obtain rfl : wished = entity := entityLogging_inj hkey
        have hwished : WishedFor earlier.store wished :=
          ⟨source, Array.mem_of_getElem? hsource,
            (congrArg Key.kind (hstore.concept_key hsource)).symm.trans hsourceKind, hwishes⟩
        rw [contributed_logOf, List.mem_map] at hx
        obtain ⟨property, hproperty, rfl⟩ := hx
        have hrefers := (mem_withFirstField_iff hstore).1 ⟨property, hproperty, rfl⟩
        exact .inr ⟨hwished.grows hgrows hstore, hrefers.grows hgrows hstore⟩

/-- Where every wish has been granted, the log of an entity for which there is one lists
all properties of the entity. -/
theorem represents_of_reviewed (hstore : run.store.WellFormed)
    (hreviewed : run.Reviewed standard) (hdeferred : run.deferred = [])
    (hwished : WishedFor run.store entity) (hrefers : RefersToProperty run.store entity x) :
    ∃ source, run.store.Represents source ∧ source.key = (entityLogging entity).key ∧
      x ∈ Value.contributed (source.attribute? auditedName) := by
  obtain ⟨wish, hwish, hkind, hwishes⟩ := hwished
  have hrule : allPropertiesLoggingRule ∈ standard.rulesFor wish.concept.kind := by
    have hget := hstore.get?_of_mem hwish
    refine mem_rulesFor_standard.2 (.inr (.inr ⟨?_, rfl⟩))
    exact (congrArg Key.kind (hstore.concept_key hget)).trans hkind
  obtain ⟨products, hproducts, hheld⟩ := hreviewed wish hwish _ hrule rfl
  have hgranted : allPropertiesLoggingRule.expand wish.concept run.store = .ok
      (auditing entity (run.store.withFirstField propertyKind entity)) :=
    allPropertiesLoggingRule_expand_eq_ok_iff.2 ⟨entity, hwishes, rfl⟩
  obtain rfl := Except.ok.inj (hproducts.symm.trans hgranted)
  obtain ⟨property, hproperty, hx⟩ := (mem_withFirstField_iff hstore).2 hrefers
  have hlog : logOf entity (run.store.withFirstField propertyKind entity) ∈
      auditing entity (run.store.withFirstField propertyKind entity) :=
    mem_auditing.2 ⟨List.ne_nil_of_mem hproperty, rfl⟩
  refine ⟨_, (hheld _ hlog).represents hdeferred, rfl, ?_⟩
  rw [contributed_logOf, List.mem_map]
  exact ⟨property, hproperty, hx.symm⟩

/-- A stored log lists exactly what the seeds of its key bring and, if there is a stored
wish for it, references to all stored properties of its entity. -/
theorem audit_lists_exact : ∃ registry, Auditing.registry = .ok registry ∧
    ∀ settings seeds model, registry.expand settings seeds = .ok model →
      ∀ entity : Key, ∀ log ∈ model.store.entries, log.key = (entityLogging entity).key →
        ∃ items, (log.concept.attribute? auditedName).getD (.list []) = .list items ∧
          ∀ x, x ∈ items ↔
            (∃ seed ∈ seeds, seed.key = log.key ∧
              x ∈ Value.contributed (seed.attribute? auditedName)) ∨
            (WishedFor model.store entity ∧ RefersToProperty model.store entity x) := by
  refine ⟨standard, registry_eq, fun settings seeds model h entity log hlog hkey => ?_⟩
  obtain ⟨last, hlast, hphase, hdeferred, hmodel⟩ := Run.reachable_of_expand h
  rw [hmodel] at hlog ⊢
  have haccounts := hlast.accounts
  have hstore := haccounts.wellFormed
  have hget := hstore.get?_of_mem hlog
  have hconcept := hstore.concept_key hget
  have hcumulative : last.store.schema.isCumulative log.concept.kind auditedName = true := by
    rw [haccounts.schema]
    exact isCumulative_standard.2 ⟨congrArg Key.kind (hconcept.trans hkey), rfl⟩
  have hwithin : ∀ {source : Concept}, last.store.Represents source → source.key = log.key →
      ∀ x ∈ Value.contributed (source.attribute? auditedName),
        x ∈ Value.contributed (log.concept.attribute? auditedName) := by
    intro source hsource hsourceKey
    have hwithin := hsource.within hstore hlog hsourceKey
    exact hwithin.items auditedName (hwithin.kind ▸ hcumulative)
  have hitems : ∃ items, (log.concept.attribute? auditedName).getD (.list []) = .list items ∧
      items = Value.contributed (log.concept.attribute? auditedName) := by
    cases hvalue : log.concept.attribute? auditedName with
    | none => exact ⟨[], rfl, rfl⟩
    | some value =>
        obtain ⟨items, rfl, -⟩ := hstore.isSet_of_cumulative hget hcumulative hvalue
        exact ⟨items, rfl, rfl⟩
  obtain ⟨items, hvalue, rfl⟩ := hitems
  refine ⟨_, hvalue, fun x => ⟨fun hx => ?_, ?_⟩⟩
  · obtain ⟨source, hsource, hsourceKey, hx⟩ :=
      (hlast.spannedBy_arisen.stored log.id log hget).items auditedName hcumulative x hx
    rw [hconcept] at hsourceKey
    exact (audited_of_arisen hsource (hsourceKey.trans hkey) hx).imp
      (fun hseed => ⟨source, hseed, hsourceKey, hx⟩) id
  · rintro (⟨seed, hseed, hseedKey, hx⟩ | ⟨hwished, hrefers⟩)
    · exact hwithin ((haccounts.offered seed hseed).represents hdeferred) hseedKey x hx
    · obtain ⟨source, hsource, hsourceKey, hx⟩ :=
        represents_of_reviewed hstore (hlast.reviewed hphase) hdeferred hwished hrefers
      exact hwithin hsource (hsourceKey.trans hkey.symm) x hx

end ConceptExpansion.Auditing

namespace ConceptExpansion.Auditing.Bookshop

/-- What is stored of the books: their title, and a wish to audit everything. -/
theorem stored_of_books {run : Run} (h : Complete seeds run) :
    WishedFor run.store book.key ∧
      RefersToProperty run.store book.key (property book.key "Title" "String").reference := by
  have hmonitored : monitored book.key ∈ seeds := by decide
  obtain ⟨wish, hwish, hconcept⟩ := h.exists_entry_iff.2 (.allProperties hmonitored)
  have htitle : property book.key "Title" "String" ∈ seeds := by decide
  obtain ⟨title, hentry, hproperty⟩ := h.exists_entry_iff.2 (.seed htitle)
  refine ⟨⟨wish, hwish, ?_, ?_⟩, ⟨title, hentry, ?_, ?_, ?_⟩⟩
  · rw [← h.wellFormed.concept_key_of_mem hwish, hconcept]
    rfl
  · rw [hconcept]
    exact ⟨(entityLogging book.key).key, rfl, rfl⟩
  · rw [← h.wellFormed.concept_key_of_mem hentry, hproperty]
    rfl
  · rw [← h.wellFormed.concept_key_of_mem hentry, hproperty]
    rfl
  · rw [hproperty]

/-- The books are to be audited, so their log lists their title. -/
theorem audits_title : ∃ registry, Auditing.registry = .ok registry ∧
    ∃ model, registry.expand {} seeds = .ok model ∧
      ∃ log ∈ model.store.entries, log.key = (entityLogging book.key).key ∧
        ∃ items, (log.concept.attribute? auditedName).getD (.list []) = .list items ∧
          (property book.key "Title" "String").reference ∈ items := by
  obtain ⟨model, run, hmodel, hcomplete, hstore, -⟩ := domainModel.exists_model (by decide)
  have hmonitored : monitored book.key ∈ seeds := by decide
  obtain ⟨log, hlog, hkey⟩ := hcomplete.exists_log hmonitored
  obtain ⟨hwished, hrefers⟩ := stored_of_books hcomplete
  rw [← hstore] at hlog hwished hrefers
  obtain ⟨registry, hregistry, hexact⟩ := audit_lists_exact
  obtain rfl : standard = registry := Except.ok.inj (registry_eq.symm.trans hregistry)
  obtain ⟨items, hitems, hmem⟩ := hexact {} seeds model hmodel book.key log hlog hkey
  exact ⟨standard, registry_eq, model, hmodel, log, hlog, hkey, items, hitems,
    (hmem _).2 (.inr ⟨hwished, hrefers⟩)⟩

end ConceptExpansion.Auditing.Bookshop
