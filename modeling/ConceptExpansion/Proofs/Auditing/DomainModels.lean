/-
# Domain models and what arises from them

The seeds of a domain model are entities, properties of seeded entities and wishes to
monitor seeded entities. What arises from them are the seeds, and for every monitored
entity what monitoring amounts to, its log, perhaps with properties to audit, and where
the log writes.

All this can be stored together. Apart from the audited lists, which are cumulative, only
properties have attributes at all, so nothing disagrees as long as the seeded properties
do not.
-/

import ConceptExpansion.Proofs.Auditing.Rules
import ConceptExpansion.Proofs.Run.Acceptance

namespace ConceptExpansion

namespace Value

/-- A reference mentions its target and nothing else. -/
@[simp]
theorem mentions_toValue_iff {key target : Key} : key.toValue.Mentions target ↔ target = key := by
  constructor
  · intro h
    cases key
    cases target
    cases h
    rfl
  · rintro rfl
    exact .ref

@[simp]
theorem not_mentions_string {text : String} {target : Key} : ¬ (string text).Mentions target :=
  fun h => by cases h

end Value

namespace Auditing

variable {seeds : List Concept} {owner : Key} {concept : Concept}

/-! ## Seeds -/

/-- The key is that of a seeded entity. -/
def SeededEntity (seeds : List Concept) (key : Key) : Prop :=
  ∃ moduleName name, Auditing.entity moduleName name ∈ seeds ∧
    (Auditing.entity moduleName name).key = key

/-- The concept is an entity, or it is about a seeded entity: a property of it or the wish
to monitor it. -/
inductive Modelled (seeds : List Concept) : Concept → Prop
  | entity (moduleName name : String) : Modelled seeds (entity moduleName name)
  | property {owner : Key} (howner : SeededEntity seeds owner) (name type : String) :
      Modelled seeds (property owner name type)
  | monitored {owner : Key} (howner : SeededEntity seeds owner) :
      Modelled seeds (monitored owner)

/-- The seeds make up a domain model: properties of one name and entity have one type, and
a property that a monitored owner is to get has the type that it is to have. -/
structure DomainModel (seeds : List Concept) : Prop where
  modelled : ∀ seed ∈ seeds, Modelled seeds seed
  type_eq : ∀ {owner : Key} {name type type' : String}, property owner name type ∈ seeds →
    property owner name type' ∈ seeds → type = type'
  time : ∀ {owner : Key} {type : String}, monitored owner ∈ seeds →
    property owner createdAtName type ∈ seeds → type = timeTypeName

/-- The entity that the concept asks to monitor. -/
def monitoredBy? (concept : Concept) : Option Key :=
  if concept.kind = monitoredKind then (concept.field? 0).bind Value.key? else none

/-- The keys of all that arises from the seeds: their own, and for every monitored owner
those of what monitoring brings in and of where its log writes. -/
def arisingKeys (seeds : List Concept) : List Key :=
  seeds.map (·.key) ++ (seeds.filterMap monitoredBy?).flatMap fun owner =>
    (monitoring owner ++ logging (entityLogging owner).key).map (·.key)

theorem monitoredBy?_monitored : monitoredBy? (monitored owner) = some owner := rfl

theorem length_arisingKeys_le : (arisingKeys seeds).length ≤ 8 * seeds.length := by
  have hmonitored : (seeds.filterMap monitoredBy?).length ≤ seeds.length :=
    List.length_filterMap_le _ _
  have heach : ∀ owner : Key,
      ((monitoring owner ++ logging (entityLogging owner).key).map (·.key)).length = 7 :=
    fun _ => rfl
  simp only [arisingKeys, List.length_append, List.length_map, List.length_flatMap, heach,
    List.map_const', List.sum_replicate, smul_eq_mul]
  omega

theorem property_key_inj {owner owner' : Key} {name name' type type' : String}
    (h : (property owner name type).key = (property owner' name' type').key) :
    owner = owner' ∧ name = name' := by
  have hfields : [owner.toValue, .string name] = [owner'.toValue, .string name'] :=
    congrArg Key.fields h
  obtain ⟨howner, hname, -⟩ : owner.toValue = owner'.toValue ∧
      Value.string name = .string name' ∧ ([] : List Value) = [] := by simpa using hfields
  exact ⟨Key.toValue_injective howner, Value.string.inj hname⟩

theorem attribute?_property (owner : Key) (propertyName type name : String) :
    (property owner propertyName type).attribute? name =
      if name = typeName then some (dataType type).toValue else none :=
  NameMap.get?_insert _ _ _ _

theorem property_inj {owner owner' : Key} {name name' type type' : String}
    (h : property owner name type = property owner' name' type') :
    owner = owner' ∧ name = name' ∧ type = type' := by
  have htarget := congrArg (·.attribute? typeName) h
  simp only [attribute?_property, if_pos, Option.some.injEq] at htarget
  have hfields : [Value.string type] = [.string type'] :=
    congrArg Key.fields (Key.toValue_injective htarget)
  obtain ⟨howner, hname⟩ := property_key_inj (congrArg Concept.key h)
  exact ⟨howner, hname, Value.string.inj (List.singleton_inj.1 hfields)⟩

/-! ## What arises -/

/-- The property for the time of creation, which monitored entities get. -/
def createdAt (owner : Key) : Concept :=
  property owner createdAtName timeTypeName

theorem mem_monitoring_iff : concept ∈ monitoring owner ↔
    concept = createdAt owner ∨ concept = creationTime (createdAt owner).key ∨
      concept = denyUserEdit (createdAt owner).key ∨ concept = entityLogging owner ∨
        concept = allPropertiesLogging (entityLogging owner).key := by
  simp [monitoring, createdAt]

theorem mem_logging_iff {log : Key} : concept ∈ logging log ↔
    concept = auditLog commonLogName ∨
      concept = logTarget log (auditLog commonLogName).key := by
  simp [logging]

/-- What arises from a domain model, whatever its logs audit. -/
inductive Arising (seeds : List Concept) : Concept → Prop
  | entity {moduleName name : String} (h : entity moduleName name ∈ seeds) :
      Arising seeds (entity moduleName name)
  | property {owner : Key} {name type : String} (howner : SeededEntity seeds owner)
      (h : property owner name type ∈ seeds) : Arising seeds (property owner name type)
  | monitored {owner : Key} (howner : SeededEntity seeds owner)
      (h : monitored owner ∈ seeds) : Arising seeds (monitored owner)
  | createdAt {owner : Key} (h : monitored owner ∈ seeds) :
      Arising seeds (createdAt owner)
  | creationTime {owner : Key} (h : monitored owner ∈ seeds) :
      Arising seeds (creationTime (createdAt owner).key)
  | denyUserEdit {owner : Key} (h : monitored owner ∈ seeds) :
      Arising seeds (denyUserEdit (createdAt owner).key)
  | log {owner : Key} (h : monitored owner ∈ seeds) : Arising seeds (entityLogging owner)
  | audit {owner : Key} (h : monitored owner ∈ seeds) (items : List Value) :
      Arising seeds ((entityLogging owner).setAttribute auditedName (.list items))
  | allProperties {owner : Key} (h : monitored owner ∈ seeds) :
      Arising seeds (allPropertiesLogging (entityLogging owner).key)
  | common {owner : Key} (h : monitored owner ∈ seeds) : Arising seeds (auditLog commonLogName)
  | target {owner : Key} (h : monitored owner ∈ seeds) :
      Arising seeds (logTarget (entityLogging owner).key (auditLog commonLogName).key)

namespace Arising

/-- Wishes to monitor are seeds. -/
theorem exists_of_monitoredKind (h : Arising seeds concept) (hkind : concept.kind = monitoredKind) :
    ∃ owner, SeededEntity seeds owner ∧ Auditing.monitored owner ∈ seeds ∧
      concept = Auditing.monitored owner := by
  cases h with
  | monitored hentity h => exact ⟨_, hentity, h, rfl⟩
  | _ => exact absurd hkind (ne_of_beq_false rfl)

/-- Logs are of monitored entities. -/
theorem exists_of_entityLoggingKind (h : Arising seeds concept)
    (hkind : concept.kind = entityLoggingKind) :
    ∃ owner, Auditing.monitored owner ∈ seeds ∧ concept.key = (entityLogging owner).key := by
  cases h with
  | log h => exact ⟨_, h, rfl⟩
  | audit h => exact ⟨_, h, rfl⟩
  | _ => exact absurd hkind (ne_of_beq_false rfl)

/-- Wishes to audit everything are about logs of monitored entities. -/
theorem exists_of_allPropertiesLoggingKind (h : Arising seeds concept)
    (hkind : concept.kind = allPropertiesLoggingKind) :
    ∃ owner, Auditing.monitored owner ∈ seeds ∧
      concept = allPropertiesLogging (entityLogging owner).key := by
  cases h with
  | allProperties h => exact ⟨_, h, rfl⟩
  | _ => exact absurd hkind (ne_of_beq_false rfl)

/-- An audit log is there for the log of a monitored entity. -/
theorem exists_of_auditLogKind (h : Arising seeds concept) (hkind : concept.kind = auditLogKind) :
    ∃ owner, Auditing.monitored owner ∈ seeds := by
  cases h with
  | common h => exact ⟨_, h⟩
  | _ => exact absurd hkind (ne_of_beq_false rfl)

/-- Properties are seeds, or hold the time of creation of monitored entities. -/
theorem exists_of_propertyKind (h : Arising seeds concept) (hkind : concept.kind = propertyKind) :
    ∃ owner name type, concept = Auditing.property owner name type ∧
      (Auditing.property owner name type ∈ seeds ∨
        Auditing.monitored owner ∈ seeds ∧ name = createdAtName ∧ type = timeTypeName) := by
  cases h with
  | property _ h => exact ⟨_, _, _, rfl, .inl h⟩
  | createdAt h => exact ⟨_, _, _, rfl, .inr ⟨h, rfl, rfl⟩⟩
  | _ => exact absurd hkind (ne_of_beq_false rfl)

/-- Whatever is no property has only attributes that add up. -/
theorem attribute?_eq_none (h : Arising seeds concept) (hkind : concept.kind ≠ propertyKind)
    {name : String} (hname : standard.schema.isCumulative concept.kind name = false) :
    concept.attribute? name = none := by
  cases h with
  | property => exact absurd rfl hkind
  | createdAt => exact absurd rfl hkind
  | audit _ items =>
      have hne : name ≠ auditedName := fun heq => by
        cases hname.symm.trans (isCumulative_standard.2 ⟨rfl, heq⟩)
      exact (NameMap.get?_insert _ _ _ _).trans (if_neg hne)
  | _ => rfl

theorem exists_validate (h : Arising seeds concept) :
    ∃ kind, standard.schema.validate concept = .ok kind := by
  cases h <;> exact ⟨_, rfl⟩

theorem key_mem (h : Arising seeds concept) : concept.key ∈ arisingKeys seeds := by
  have hseed : ∀ {seed : Concept}, seed ∈ seeds → seed.key ∈ arisingKeys seeds :=
    fun hseed => List.mem_append_left _ (List.mem_map_of_mem hseed)
  have hmonitored : ∀ {owner : Key} {concept : Concept}, Auditing.monitored owner ∈ seeds →
      concept ∈ monitoring owner ++ logging (entityLogging owner).key →
        concept.key ∈ arisingKeys seeds := fun howner hconcept =>
    List.mem_append_right _ (List.mem_flatMap.2
      ⟨_, List.mem_filterMap.2 ⟨_, howner, monitoredBy?_monitored⟩, List.mem_map_of_mem hconcept⟩)
  have hlog : ∀ {owner : Key}, Auditing.monitored owner ∈ seeds →
      (entityLogging owner).key ∈ arisingKeys seeds := fun howner =>
    hmonitored howner (by simp [mem_monitoring_iff])
  cases h with
  | entity h => exact hseed h
  | property _ h => exact hseed h
  | monitored _ h => exact hseed h
  | log h => exact hlog h
  | audit h => exact hlog h
  | createdAt h | creationTime h | denyUserEdit h | allProperties h | common h | target h =>
      exact hmonitored h (by simp [mem_monitoring_iff, mem_logging_iff])

/-- Two descriptions of one property give it one type. -/
theorem property_congr (hmodel : DomainModel seeds) {owner : Key} {name type type' : String}
    (h : Auditing.property owner name type ∈ seeds ∨
      Auditing.monitored owner ∈ seeds ∧ name = createdAtName ∧ type = timeTypeName)
    (h' : Auditing.property owner name type' ∈ seeds ∨
      Auditing.monitored owner ∈ seeds ∧ name = createdAtName ∧ type' = timeTypeName) :
    type = type' := by
  obtain hseed | ⟨hentity, rfl, rfl⟩ := h
  · obtain hseed' | ⟨hentity, rfl, rfl⟩ := h'
    · exact hmodel.type_eq hseed hseed'
    · exact hmodel.time hentity hseed
  · obtain hseed' | ⟨-, -, rfl⟩ := h'
    · exact (hmodel.time hentity hseed').symm
    · rfl

/-- What arises from a domain model can be stored together. -/
theorem coherent (hmodel : DomainModel seeds)
    (hfits : (arisingKeys seeds).dedup.length < Store.capacity) :
    standard.schema.Coherent (Arising seeds) where
  valid h := h.exists_validate
  agree {a b} ha hb hkey name hname := by
    have hkinds : a.kind = b.kind := congrArg Key.kind hkey
    by_cases hkind : a.kind = propertyKind
    · obtain ⟨owner, propertyName, type, rfl, hfirst⟩ := ha.exists_of_propertyKind hkind
      obtain ⟨owner', propertyName', type', rfl, hsecond⟩ :=
        hb.exists_of_propertyKind (hkinds.symm.trans hkind)
      obtain ⟨rfl, rfl⟩ := property_key_inj hkey
      rw [property_congr hmodel hfirst hsecond]
    · rw [ha.attribute?_eq_none hkind hname,
        hb.attribute?_eq_none (hkinds ▸ hkind) (hkinds ▸ hname)]
  fits := ⟨_, hfits.le, fun h => List.mem_dedup.2 h.key_mem⟩

end Arising

theorem DomainModel.arising (hmodel : DomainModel seeds) (h : concept ∈ seeds) :
    Arising seeds concept := by
  cases hmodel.modelled concept h with
  | entity => exact .entity h
  | property howner => exact .property howner h
  | monitored howner => exact .monitored howner h

/-! ## Stages -/

/-- The seeds and what monitoring amounts to. -/
def Prepared (seeds : List Concept) (concept : Concept) : Prop :=
  concept ∈ seeds ∨ ∃ owner, monitored owner ∈ seeds ∧ concept ∈ monitoring owner

/-- Beside that, where logs write, and the properties to audit as this store has them. -/
def Completed (seeds : List Concept) (store : Store) (concept : Concept) : Prop :=
  Prepared seeds concept ∨ ∃ owner, monitored owner ∈ seeds ∧
    (concept ∈ logging (entityLogging owner).key ∨
      concept ∈ auditing owner (store.withFirstField propertyKind owner))

theorem Prepared.arising (hmodel : DomainModel seeds) (h : Prepared seeds concept) :
    Arising seeds concept := by
  obtain hseed | ⟨entity, hentity, hconcept⟩ := h
  · exact hmodel.arising hseed
  · obtain rfl | rfl | rfl | rfl | rfl := mem_monitoring_iff.1 hconcept
    · exact .createdAt hentity
    · exact .creationTime hentity
    · exact .denyUserEdit hentity
    · exact .log hentity
    · exact .allProperties hentity

theorem Completed.arising {store : Store} (hmodel : DomainModel seeds)
    (h : Completed seeds store concept) : Arising seeds concept := by
  obtain hprepared | ⟨entity, hentity, hlogging | hauditing⟩ := h
  · exact hprepared.arising hmodel
  · obtain rfl | rfl := mem_logging_iff.1 hlogging
    · exact .common hentity
    · exact .target hentity
  · obtain ⟨-, rfl⟩ := mem_auditing.1 hauditing
    exact .audit hentity _

/-- A key field of a seed refers to a seeded entity. -/
theorem DomainModel.exists_seed (hmodel : DomainModel seeds) (h : concept ∈ seeds) {target : Key}
    (htarget : concept.key.Mentions target) : ∃ seed ∈ seeds, seed.key = target := by
  obtain ⟨value, hvalue, htarget⟩ := htarget
  cases hmodel.modelled concept h with
  | entity moduleName name =>
      simp only [Concept.key, Auditing.entity, List.mem_cons, List.not_mem_nil, or_false] at hvalue
      obtain rfl | rfl := hvalue <;> cases htarget
  | property howner name type =>
      obtain ⟨moduleName, entityName, hseed, rfl⟩ := howner
      simp only [Concept.key, property, List.mem_cons, List.not_mem_nil, or_false] at hvalue
      obtain rfl | rfl := hvalue
      · exact ⟨_, hseed, (Value.mentions_toValue_iff.1 htarget).symm⟩
      · cases htarget
  | monitored howner =>
      obtain ⟨moduleName, entityName, hseed, rfl⟩ := howner
      simp only [Concept.key, monitored, List.mem_singleton] at hvalue
      subst hvalue
      exact ⟨_, hseed, (Value.mentions_toValue_iff.1 htarget).symm⟩

theorem monitored_inj {owner owner' : Key} (h : (monitored owner).key = (monitored owner').key) :
    owner = owner' := by
  have hfields : [owner.toValue] = [owner'.toValue] := congrArg Key.fields h
  exact Key.toValue_injective (List.singleton_inj.1 hfields)

/-- What is monitored is a seeded entity. -/
theorem DomainModel.seededEntity (hmodel : DomainModel seeds) (h : monitored owner ∈ seeds) :
    SeededEntity seeds owner := by
  obtain ⟨other, hentity, -, heq⟩ := (hmodel.arising h).exists_of_monitoredKind rfl
  exact monitored_inj (congrArg Concept.key heq) ▸ hentity

/-- What monitoring amounts to refers to the entity, or to more of the same. -/
theorem mentions_of_mem_monitoring (hconcept : concept ∈ monitoring owner) {target : Key}
    (h : concept.key.Mentions target) :
    target = owner ∨ ∃ other ∈ monitoring owner, other.key = target := by
  have hcreatedAt : createdAt owner ∈ monitoring owner := mem_monitoring_iff.2 (.inl rfl)
  have hlog : entityLogging owner ∈ monitoring owner := by simp [mem_monitoring_iff]
  obtain ⟨value, hvalue, h⟩ := h
  obtain rfl | rfl | rfl | rfl | rfl := mem_monitoring_iff.1 hconcept
  · simp only [createdAt, property, Concept.key, List.mem_cons, List.not_mem_nil,
      or_false] at hvalue
    obtain rfl | rfl := hvalue
    · exact .inl (Value.mentions_toValue_iff.1 h)
    · cases h
  · rw [List.mem_singleton.1 hvalue] at h
    exact .inr ⟨_, hcreatedAt, (Value.mentions_toValue_iff.1 h).symm⟩
  · rw [List.mem_singleton.1 hvalue] at h
    exact .inr ⟨_, hcreatedAt, (Value.mentions_toValue_iff.1 h).symm⟩
  · rw [List.mem_singleton.1 hvalue] at h
    exact .inl (Value.mentions_toValue_iff.1 h)
  · rw [List.mem_singleton.1 hvalue] at h
    exact .inr ⟨_, hlog, (Value.mentions_toValue_iff.1 h).symm⟩

/-- Where a log writes refers to the log and to the common audit log. -/
theorem mentions_of_mem_logging {log target : Key} (hconcept : concept ∈ logging log)
    (h : concept.key.Mentions target) :
    target = log ∨ target = (auditLog commonLogName).key := by
  obtain ⟨value, hvalue, h⟩ := h
  obtain rfl | rfl := mem_logging_iff.1 hconcept
  · rw [List.mem_singleton.1 hvalue] at h
    cases h
  · simp only [logTarget, Concept.key, List.mem_cons, List.not_mem_nil, or_false] at hvalue
    obtain rfl | rfl := hvalue
    · exact .inl (Value.mentions_toValue_iff.1 h)
    · exact .inr (Value.mentions_toValue_iff.1 h)

/-! ### References stay within the stage -/

theorem DomainModel.closes (hmodel : DomainModel seeds) : standard.schema.Closes (· ∈ seeds) :=
  fun hconcept _ htarget => .inr (hmodel.exists_seed hconcept htarget)

theorem DomainModel.exists_prepared (hmodel : DomainModel seeds) (h : Prepared seeds concept)
    {target : Key} (htarget : concept.key.Mentions target) :
    ∃ other, Prepared seeds other ∧ other.key = target := by
  obtain hseed | ⟨owner, howner, hconcept⟩ := h
  · obtain ⟨seed, hseed, hkey⟩ := hmodel.exists_seed hseed htarget
    exact ⟨seed, .inl hseed, hkey⟩
  · obtain rfl | ⟨other, hother, hkey⟩ := mentions_of_mem_monitoring hconcept htarget
    · obtain ⟨moduleName, name, hentity, hkey⟩ := hmodel.seededEntity howner
      exact ⟨_, .inl hentity, hkey⟩
    · exact ⟨other, .inr ⟨owner, howner, hother⟩, hkey⟩

theorem DomainModel.closes_prepared (hmodel : DomainModel seeds) :
    standard.schema.Closes (Prepared seeds) :=
  fun hconcept _ htarget => .inr (hmodel.exists_prepared hconcept htarget)

theorem DomainModel.closes_completed (hmodel : DomainModel seeds) (store : Store) :
    standard.schema.Closes (Completed seeds store) := by
  have hprepared : ∀ {concept target : _}, Prepared seeds concept → concept.key.Mentions target →
      ∃ other, Completed seeds store other ∧ other.key = target := fun hconcept htarget =>
    (hmodel.exists_prepared hconcept htarget).imp fun _ hother => ⟨.inl hother.1, hother.2⟩
  rintro concept (hconcept | ⟨owner, howner, hlogging | hauditing⟩) target htarget
  · exact .inr (hprepared hconcept htarget)
  · obtain rfl | rfl := mentions_of_mem_logging hlogging htarget
    · have hlog : entityLogging owner ∈ monitoring owner := by simp [mem_monitoring_iff]
      exact .inr ⟨_, .inl (.inr ⟨owner, howner, hlog⟩), rfl⟩
    · exact .inr ⟨_, .inr ⟨owner, howner, .inl (mem_logging_iff.2 (.inl rfl))⟩, rfl⟩
  · -- The log with its list has the key of the log without it.
    obtain ⟨-, rfl⟩ := mem_auditing.1 hauditing
    have hlog : Prepared seeds (entityLogging owner) :=
      .inr ⟨owner, howner, by simp [mem_monitoring_iff]⟩
    exact .inr (hprepared hlog htarget)

end Auditing

end ConceptExpansion
