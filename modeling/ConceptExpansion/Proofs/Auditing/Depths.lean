/-
# Derivations of audited domain models are short

The three rules look as if they went in a circle: monitoring brings in a log and the wish to
audit everything, and granting the wish brings in a log. But no concept is more than two steps
from a seed, whatever the seeds are. No rule returns a wish to monitor. A log is expanded into
concepts without rules. And a wish that comes from monitoring names a log that was stored
before the wish could be, so that what it brings in is that log once more, and no new concept.
Only a wish that is a seed brings in a log that was not there.

A ceiling of two steps is therefore as good as any higher one: the run goes the same way under
both and comes to the same end.
-/

import ConceptExpansion.Proofs.Auditing.NamedLogs
import ConceptExpansion.Proofs.Expansion.Chains
import ConceptExpansion.Proofs.Expansion.DepthCeilings

namespace ConceptExpansion.Auditing

variable {settings limits : Settings} {seeds : List Concept} {begun : List Run} {run : Run}
  {rest : List Offer} {earlier : Store} {source entry : Entry} {product : Concept}
  {id : ConceptId} {key : Key} {error : ExpansionError}

/-- How many steps from the seeds concepts of a kind can be. -/
def reach (kind : String) : Nat :=
  if kind = monitoredKind then 0
  else if kind = entityLoggingKind ∨ kind = allPropertiesLoggingKind then 1
  else 2

theorem reach_le_two (kind : String) : reach kind ≤ 2 := by
  unfold reach
  split_ifs <;> decide

/-- The concept stored under the key is within the reach of its kind, and if it is a wish to
audit everything that is no seed, it names the log of some owner. -/
structure Near (run : Run) (id : ConceptId) (key : Key) : Prop where
  depth : run.depthOf id ≤ reach key.kind
  wish : key.kind = allPropertiesLoggingKind → run.depthOf id ≠ 0 →
    ∃ owner, key = (allPropertiesLogging (entityLogging owner).key).key

namespace Near

/-- What monitoring brings in is near if the monitoring itself is a seed. -/
theorem of_monitoring {owner : Key} (hproduct : product ∈ monitoring owner)
    (hdepth : run.depthOf id ≤ 1) : Near run id product.key := by
  obtain rfl | rfl | rfl | rfl | rfl := mem_monitoring_iff.1 hproduct
  case inr.inr.inr.inr => exact ⟨hdepth, fun _ _ => ⟨owner, rfl⟩⟩
  case inr.inr.inr.inl => exact ⟨hdepth, fun hkind => absurd hkind (ne_of_beq_false rfl)⟩
  all_goals exact ⟨hdepth.trans one_le_two, fun hkind => absurd hkind (ne_of_beq_false rfl)⟩

/-- What a log brings in has no rules. -/
theorem of_logging {log : Key} (hproduct : product ∈ logging log)
    (hdepth : run.depthOf id ≤ 2) : Near run id product.key := by
  obtain rfl | rfl := mem_logging_iff.1 hproduct
  all_goals exact ⟨hdepth, fun hkind => absurd hkind (ne_of_beq_false rfl)⟩

end Near

/-- A wish that names the log of an owner grants what is stored already under its key, if the
wish is stored. -/
theorem contains_of_granted (hstore : earlier.WellFormed)
    (hschema : earlier.schema = standard.schema) (hsource : earlier.get? id = some source)
    {owner entity : Key}
    (hkey : source.key = (allPropertiesLogging (entityLogging owner).key).key)
    (hwishes : Wishes source.concept entity) :
    earlier.contains (entityLogging entity).key = true := by
  have hconcept : source.concept.key = (allPropertiesLogging (entityLogging owner).key).key :=
    (hstore.concept_key hsource).trans hkey
  have hfields : source.concept.fields = [(entityLogging owner).key.toValue] :=
    congrArg Key.fields hconcept
  have hnamed : source.concept.field? 0 = some (entityLogging owner).key.toValue := by
    rw [Concept.field?, hfields]
    rfl
  obtain ⟨log, hlog, hentity⟩ := hwishes
  obtain rfl := Key.toValue_injective (Option.some.inj (hnamed.symm.trans hlog))
  obtain rfl : owner = entity := Key.toValue_injective (Option.some.inj hentity)
  have hstored : earlier.contains source.concept.key = true :=
    hstore.contains_iff_mem.2 ⟨source, Array.mem_of_getElem? hsource,
      (hstore.concept_key hsource).symm⟩
  exact contains_of_field hstore hschema hstored hnamed rfl

/-- Every stored concept is near the seeds. -/
theorem near_of_documented (h : Run.Documented standard settings limits seeds begun run rest)
    (hschema : ∀ earlier ∈ begun, earlier.store.schema = standard.schema)
    (hget : run.store.get? id = some entry) : Near run id entry.key := by
  -- Parents are older than what was derived from them.
  induction hindex : id.index using Nat.strong_induction_on generalizing id entry with
  | _ index ih =>
      subst hindex
      obtain ⟨-, hdepth, -⟩ | ⟨earlier, hearlier, hbound, job, -, -, hdepth, source, hsource,
        hrule, products, hproducts, product, hproduct, hkey⟩ := h.issued_cases hget
      · exact ⟨hdepth ▸ Nat.zero_le _, fun _ hne => absurd hdepth hne⟩
      · obtain ⟨hwellFormed, hgrows, -⟩ := h.goesOn earlier hearlier
        obtain ⟨parent, hparent, hparentKey, -⟩ := hgrows.entry hsource
        have hnear : Near run job.source source.key :=
          hparentKey ▸ ih _ ((Run.index_lt_of_get? hsource).trans_le hbound) hparent rfl
        have hreach := hnear.depth
        rw [← hkey]
        obtain ⟨hkind, hrule⟩ | ⟨hkind, hrule⟩ | ⟨hkind, hrule⟩ := mem_rulesFor_standard.1 hrule
        · rw [hrule] at hproducts
          obtain ⟨owner, -, -, rfl⟩ := monitoredRule_expand_eq_ok_iff.1 hproducts
          rw [hkind, show reach monitoredKind = 0 from rfl] at hreach
          exact .of_monitoring hproduct (by omega)
        · rw [hrule] at hproducts
          obtain ⟨-, -, rfl⟩ := entityLoggingRule_expand_eq_ok_iff.1 hproducts
          rw [hkind, show reach entityLoggingKind = 1 from rfl] at hreach
          exact .of_logging hproduct (by omega)
        · rw [hrule] at hproducts
          obtain ⟨entity, hwishes, rfl⟩ := allPropertiesLoggingRule_expand_eq_ok_iff.1 hproducts
          obtain ⟨-, rfl⟩ := mem_auditing.1 hproduct
          have hseeded : run.depthOf job.source = 0 := by
            by_contra hne
            obtain ⟨owner, hnamed⟩ := hnear.wish hkind hne
            have hcontains := contains_of_granted hwellFormed (hschema earlier hearlier) hsource
              hnamed hwishes
            -- The log that is brought in has been there, so it is not this concept.
            obtain ⟨log, hlog, hlogKey⟩ := hwellFormed.contains_iff_mem.1 hcontains
            have hlogGet := hwellFormed.get?_of_mem hlog
            have hid := hgrows.idOf? (hwellFormed.idOf?_eq_some_iff.2 ⟨log, hlogGet, hlogKey⟩)
            have hid' := h.attributed.wellFormed.idOf?_eq_some_iff.2 ⟨entry, hget, hkey.symm⟩
            obtain rfl : log.id = id := Option.some.inj (hid.symm.trans hid')
            exact absurd (Run.index_lt_of_get? hlogGet) (Nat.not_lt.2 hbound)
          refine ⟨?_, fun hkind => absurd hkind (ne_of_beq_false rfl)⟩
          show run.depthOf id ≤ 1
          omega

/-- No concept is found to be too deep if two steps are allowed. -/
theorem not_tooDeep_of_failsAfter (h : Run.FailsAfter standard settings seeds begun error)
    (hallowed : 2 ≤ settings.maxDepth) (limit : Nat) (chain : List Key) :
    error ≠ .nonTerminating (.depth limit) chain := by
  rintro rfl
  have hcovered : ∀ earlier ∈ begun, earlier.Covered standard settings :=
    fun earlier hearlier => h.covered (fun _ _ hover => by cases hover) hearlier
  have hschema : ∀ earlier ∈ begun, earlier.store.schema = standard.schema :=
    fun earlier hearlier => (h.reachable hearlier).accounts.schema
  obtain ⟨rfl, limits, run, rest, id, entry, hdocumented, hget, hdepth, -⟩ :=
    h.overreaches hcovered
  have hnear := (near_of_documented hdocumented hschema hget).depth.trans (reach_le_two _)
  omega

theorem not_tooDeep (hallowed : 2 ≤ settings.maxDepth) (limit : Nat) (chain : List Key) :
    standard.expand settings seeds ≠ .error (.nonTerminating (.depth limit) chain) := by
  intro hfails
  obtain ⟨begun, hafter⟩ := Run.expand_eq_error_iff.1 hfails
  exact not_tooDeep_of_failsAfter hafter hallowed limit chain rfl

/-- If two steps are allowed, allowing more changes nothing. -/
theorem expand_two (hallowed : 2 ≤ settings.maxDepth) :
    standard.expand settings seeds = standard.expand { settings with maxDepth := 2 } seeds := by
  have hlower : settings.Lowers { settings with maxDepth := 2 } := ⟨hallowed, rfl⟩
  have hunless := Registry.expand_lower hlower standard seeds
  generalize hlow : standard.expand { settings with maxDepth := 2 } seeds = low at hunless
  cases hunless with
  | same => rfl
  | tooDeep limit chain =>
      have hnot : standard.expand { settings with maxDepth := 2 } seeds ≠
          .error (.nonTerminating (.depth limit) chain) := not_tooDeep le_rfl limit chain
      exact absurd hlow hnot

/-- The derivations of audited domain models have at most two steps, whatever the settings
and the seeds. This goes for every concept that is stored between two steps of a run. A run
that may go two steps is never broken off for its depth, and as every new concept is held
against the ceiling, also in a batch that fails, it comes to just what it would come to if it
could go no further. A run that succeeds has gone two steps at most. -/
theorem derivations_short : ∃ registry, Auditing.registry = .ok registry ∧
    ∀ settings seeds,
      (∀ run, Run.Reachable registry settings seeds run →
        ∀ entry ∈ run.store.entries, run.depthOf entry.id ≤ 2) ∧
      (2 ≤ settings.maxDepth →
        (∀ limit chain,
          registry.expand settings seeds ≠ .error (.nonTerminating (.depth limit) chain)) ∧
        registry.expand settings seeds =
          registry.expand { settings with maxDepth := 2 } seeds) ∧
      ∀ model, registry.expand settings seeds = .ok model → model.stats.maxDepthReached ≤ 2 := by
  refine ⟨standard, registry_eq, fun settings seeds => ⟨fun run hrun entry hentry => ?_,
    fun hallowed => ⟨not_tooDeep hallowed, expand_two hallowed⟩, fun model hmodel => ?_⟩⟩
  · obtain ⟨passed, hcourse⟩ := hrun.exists_course
    have hschema : ∀ earlier ∈ passed, earlier.store.schema = standard.schema :=
      fun earlier hearlier => (hcourse.reachable_of_mem hearlier).accounts.schema
    have hget := hrun.accounts.wellFormed.get?_of_mem hentry
    exact (near_of_documented hcourse.documented hschema hget).depth.trans (reach_le_two _)
  · by_cases hallowed : 2 ≤ settings.maxDepth
    · rw [expand_two hallowed] at hmodel
      exact maxDepthReached_le_of_expand hmodel
    · have hreached := maxDepthReached_le_of_expand hmodel
      omega

end ConceptExpansion.Auditing

/-! ## The bookshop under a low ceiling -/

namespace ConceptExpansion.Auditing.Bookshop

/-- Two steps are enough for the bookshop. -/
theorem expand_two_steps : ∃ registry, Auditing.registry = .ok registry ∧
    ∃ model, registry.expand {} seeds = .ok model ∧
      registry.expand { maxDepth := 2 } seeds = .ok model ∧ model.stats.maxDepthReached ≤ 2 := by
  obtain ⟨model, -, hmodel, -⟩ := domainModel.exists_model (by decide)
  obtain ⟨registry, hregistry, hshort⟩ := derivations_short
  obtain rfl : standard = registry := Except.ok.inj (registry_eq.symm.trans hregistry)
  obtain ⟨-, hlow, hreached⟩ := hshort {} seeds
  obtain ⟨-, hsame⟩ := hlow (by decide)
  exact ⟨standard, hregistry, model, hmodel, hsame.symm.trans hmodel, hreached model hmodel⟩

end ConceptExpansion.Auditing.Bookshop
