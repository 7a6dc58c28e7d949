/-
# Nothing that is offered is lost

A run holds a concept if its store represents it or an offer of it is deferred.
Whatever a run takes in, it holds from then on: an offer is placed or deferred,
a placed concept stays represented because the store only grows, and a deferred
one is either placed by a retry or deferred again. Beside that, taking in offers
lists every concept that is new to the store, and says truly whether it has
changed the store.
-/

import ConceptExpansion.Proofs.Store.Growth
import ConceptExpansion.Run.Intake

namespace ConceptExpansion.Run

variable {settings : Settings} {run next : Run} {offer : Offer}

/-! ## Placing an offer -/

/-- The state once the store has answered an offer. -/
def record (run : Run) (offer : Offer) (store : Store) : Admission → Run
  | .admitted id =>
    { run with
      store := store
      lineage := run.lineage.push { parent := offer.parent, depth := offer.depth }
      fresh := run.fresh.push id
      changed := true
      stats := { run.stats with
        maxDepthReached := max run.stats.maxDepthReached offer.depth } }
  | .merged _ =>
    { run with
      store := store
      changed := true
      stats := { run.stats with merges := run.stats.merges + 1 } }
  | .alreadyPresent _ =>
    { run with
      store := store
      stats := { run.stats with alreadyPresent := run.stats.alreadyPresent + 1 } }

section Record

variable (run) (offer) (store : Store) (admission : Admission)

@[simp]
theorem record_store : (run.record offer store admission).store = store := by
  cases admission <;> rfl

@[simp]
theorem record_deferred : (run.record offer store admission).deferred = run.deferred := by
  cases admission <;> rfl

@[simp]
theorem record_changed :
    (run.record offer store admission).changed = (run.changed || admission.changed) := by
  cases admission <;> simp [record, Admission.changed]

theorem fresh_record : (run.record offer store admission).fresh =
    if admission.isNew then run.fresh.push admission.id else run.fresh := by
  cases admission <;> rfl

end Record

theorem ancestry_congr {a b : Run} (hstore : a.store = b.store)
    (hparent : ∀ id, a.parentOf? id = b.parentOf? id) (steps : Nat) (id : ConceptId) :
    a.ancestry steps id = b.ancestry steps id := by
  induction steps generalizing id with
  | zero => rfl
  | succ steps ih => simp only [ancestry, hstore, hparent, ih]

/-- A derivation chain is read off the store and the parents. -/
theorem chain_congr {a b : Run} (hstore : a.store = b.store)
    (hparent : ∀ id, a.parentOf? id = b.parentOf? id) (id : ConceptId) :
    a.chain id = b.chain id := by
  unfold chain
  rw [ancestry_congr hstore hparent, hstore]

/-- Placing an offer hands it to the store and takes note of the answer, unless
the store refuses it or a new concept is too far from the seeds. -/
theorem place_eq (run : Run) (offer : Offer) :
    run.place settings offer =
      match run.store.insert offer.concept offer.origin with
      | .error cause => .error (.ofStoreError cause)
      | .ok (admission, store) =>
        if admission.isNew ∧ settings.maxDepth < offer.depth then
          .error (.nonTerminating (.depth settings.maxDepth)
            ((run.record offer store admission).chain admission.id))
        else .ok (run.record offer store admission) := by
  unfold place
  cases run.store.insert offer.concept offer.origin with
  | error cause => rfl
  | ok answer =>
      obtain ⟨admission, store⟩ := answer
      cases admission with
      | admitted id =>
          simp only [Admission.isNew, true_and, Admission.id]
          split
          · congr 2
            apply chain_congr
            · rfl
            · exact fun _ => rfl
          · rfl
      | alreadyPresent id => simp [Admission.isNew, record]
      | merged id => simp [Admission.isNew, record]

theorem insert_of_place (h : run.place settings offer = .ok next) :
    ∃ admission store, run.store.insert offer.concept offer.origin = .ok (admission, store) ∧
      next = run.record offer store admission := by
  rw [place_eq] at h
  cases hinsert : run.store.insert offer.concept offer.origin with
  | error cause => rw [hinsert] at h; cases h
  | ok answer =>
      rw [hinsert] at h
      dsimp only at h
      split at h
      · cases h
      · exact ⟨answer.1, answer.2, rfl, (Except.ok.inj h).symm⟩

/-! ## What a run holds -/

/-- The concept is stored, or an offer of it waits. -/
def Holds (run : Run) (concept : Concept) : Prop :=
  run.store.Represents concept ∨ ∃ offer ∈ run.deferred, offer.concept = concept

/-- From one state of a run to a later one of the same batch nothing that is held
is lost, what is new to the store is listed, and a batch that has not changed
the store says so. -/
structure Carries (run next : Run) : Prop where
  wellFormed : next.store.WellFormed
  grows : run.store.Grows next.store
  holds : ∀ {concept : Concept}, run.Holds concept → next.Holds concept
  fresh : ∀ {id : ConceptId}, id ∈ run.fresh → id ∈ next.fresh
  arrived : ∀ {id : ConceptId} {entry : Entry}, next.store.get? id = some entry →
    (∃ earlier, run.store.get? id = some earlier) ∨ id ∈ next.fresh
  unchanged : next.changed = false →
    run.changed = false ∧ next.store = run.store ∧ next.fresh = run.fresh

namespace Carries

theorem refl (hrun : run.store.WellFormed) : Carries run run :=
  ⟨hrun, .refl _, id, id, fun h => .inl ⟨_, h⟩, fun h => ⟨h, rfl, rfl⟩⟩

theorem trans {a b c : Run} (hab : Carries a b) (hbc : Carries b c) : Carries a c where
  wellFormed := hbc.wellFormed
  grows := hab.grows.trans hbc.grows
  holds h := hbc.holds (hab.holds h)
  fresh h := hbc.fresh (hab.fresh h)
  arrived h := by
    obtain ⟨middle, hmiddle⟩ | hfresh := hbc.arrived h
    · exact (hab.arrived hmiddle).imp id hbc.fresh
    · exact .inr hfresh
  unchanged h := by
    obtain ⟨hb, hstore, hfresh⟩ := hbc.unchanged h
    obtain ⟨ha, hstore', hfresh'⟩ := hab.unchanged hb
    exact ⟨ha, hstore.trans hstore', hfresh.trans hfresh'⟩

end Carries

/-- Only an admission under a new key adds to the identifiers of a store. -/
theorem arrived_of_insert {store later : Store} {concept : Concept} {origin : Origin}
    {admission : Admission} (h : store.insert concept origin = .ok (admission, later))
    {id : ConceptId} {entry : Entry} (hget : later.get? id = some entry) :
    (∃ earlier, store.get? id = some earlier) ∨ admission.isNew ∧ id = admission.id := by
  obtain ⟨kind, -, -, hinsertion⟩ := Store.insert_eq_ok_iff.1 h
  cases hinsertion with
  | admitted hid =>
      rw [Store.get?_push] at hget
      split at hget
      · next hindex =>
          exact .inr ⟨rfl, Store.id_ext (hindex.trans (Store.index_of_ofIndex? hid).symm)⟩
      · exact .inl ⟨_, hget⟩
  | alreadyPresent => exact .inl ⟨_, hget⟩
  | merged =>
      rw [Store.get?_setPayload] at hget
      split at hget
      · next hid =>
          obtain ⟨earlier, hearlier, -⟩ := Option.map_eq_some_iff.1 hget
          exact .inl ⟨earlier, hid ▸ hearlier⟩
      · exact .inl ⟨_, hget⟩

theorem store_of_insert_unchanged {store later : Store} {concept : Concept} {origin : Origin}
    {admission : Admission} (h : store.insert concept origin = .ok (admission, later))
    (hunchanged : admission.changed = false) : later = store ∧ admission.isNew = false := by
  obtain ⟨kind, -, -, hinsertion⟩ := Store.insert_eq_ok_iff.1 h
  cases hinsertion with
  | alreadyPresent => exact ⟨rfl, rfl⟩
  | admitted | merged => cases hunchanged

theorem carries_of_place (hrun : run.store.WellFormed)
    (h : run.place settings offer = .ok next) :
    Carries run next ∧ next.Holds offer.concept := by
  obtain ⟨admission, store, hinsert, rfl⟩ := insert_of_place h
  have hwellFormed := hrun.insert hinsert
  have hgrows := hrun.grows_insert hinsert
  have hcarries : Carries run (run.record offer store admission) :=
    { wellFormed := by simpa using hwellFormed
      grows := by simpa using hgrows
      holds := by
        intro concept hholds
        unfold Holds
        rw [record_store, record_deferred]
        exact hholds.imp (fun hrepresents => hrepresents.grows hgrows hrun hwellFormed) id
      fresh := by
        intro id hid
        rw [fresh_record]
        split
        · exact Array.mem_push_of_mem _ hid
        · exact hid
      arrived := by
        intro id entry hget
        rw [record_store] at hget
        apply (arrived_of_insert hinsert hget).imp_right
        rintro ⟨hnew, hid⟩
        rw [fresh_record, if_pos hnew, hid]
        exact Array.mem_push_self
      unchanged := by
        intro hunchanged
        rw [record_changed, Bool.or_eq_false_iff] at hunchanged
        obtain ⟨hstore, hnew⟩ := store_of_insert_unchanged hinsert hunchanged.2
        rw [record_store, fresh_record, hnew]
        exact ⟨hunchanged.1, hstore, rfl⟩ }
  refine ⟨hcarries, .inl ?_⟩
  rw [record_store]
  exact hrun.represents_of_insert hinsert

/-! ## Taking in one offer -/

/-- An offer that waits is held, and so is all that was held before. -/
theorem carries_of_defer (hrun : run.store.WellFormed) (stats : Stats) :
    Carries run { run with deferred := run.deferred ++ [offer], stats := stats } ∧
      Holds { run with deferred := run.deferred ++ [offer], stats := stats } offer.concept := by
  have hholds : ∀ {concept : Concept}, run.Holds concept →
      Holds { run with deferred := run.deferred ++ [offer], stats := stats } concept := by
    intro concept hholds
    apply hholds.imp_right
    rintro ⟨earlier, hmem, hconcept⟩
    exact ⟨earlier, List.mem_append_left _ hmem, hconcept⟩
  have hcarries : Carries run run := .refl hrun
  refine ⟨{ hcarries with holds := hholds }, .inr ⟨offer, ?_, rfl⟩⟩
  exact List.mem_append_right _ List.mem_cons_self

theorem carries_of_receive (hrun : run.store.WellFormed)
    (h : run.receive settings offer = .ok next) :
    Carries run next ∧ next.Holds offer.concept := by
  obtain ⟨-, ⟨target, -, rfl⟩ | ⟨-, hplace⟩⟩ := receive_cases h
  · exact carries_of_defer hrun _
  · exact carries_of_place hrun hplace

theorem carries_of_reconsider (hrun : run.store.WellFormed)
    (h : run.reconsider settings offer = .ok next) :
    Carries run next ∧ next.Holds offer.concept := by
  obtain ⟨target, -, rfl⟩ | ⟨-, hplace⟩ := reconsider_cases h
  · exact carries_of_defer hrun run.stats
  · exact carries_of_place hrun hplace

/-! ## Taking in many -/

/-- A fold of steps each of which holds what it is given holds all of it. -/
theorem carries_of_foldlM {f : Run → Offer → Except ExpansionError Run}
    (hstep : ∀ {run next : Run} {offer : Offer}, run.store.WellFormed →
      f run offer = .ok next → Carries run next ∧ next.Holds offer.concept)
    {offers : List Offer} {run next : Run} (hrun : run.store.WellFormed)
    (h : offers.foldlM f run = .ok next) :
    Carries run next ∧ ∀ offer ∈ offers, next.Holds offer.concept := by
  induction offers generalizing run with
  | nil =>
      cases h
      exact ⟨.refl hrun, by simp⟩
  | cons offer offers ih =>
      rw [List.foldlM_cons] at h
      obtain ⟨middle, hf, h⟩ := exists_of_bind_eq_ok h
      obtain ⟨hfirst, hholds⟩ := hstep hrun hf
      obtain ⟨hrest, hall⟩ := ih hfirst.wellFormed h
      refine ⟨hfirst.trans hrest, fun other hother => ?_⟩
      rcases List.mem_cons.1 hother with rfl | hother
      · exact hrest.holds hholds
      · exact hall other hother

/-- What is received fits the schema. -/
theorem valid_of_receiveAll {offers : List Offer} (hrun : run.store.WellFormed)
    (h : offers.foldlM (receive settings) run = .ok next) :
    ∀ offer ∈ offers, ∃ kind, run.store.schema.validate offer.concept = .ok kind := by
  induction offers generalizing run with
  | nil => exact fun _ hoffer => absurd hoffer List.not_mem_nil
  | cons first offers ih =>
      rw [List.foldlM_cons] at h
      obtain ⟨middle, hfirst, h⟩ := exists_of_bind_eq_ok h
      have hcarries := (carries_of_receive hrun hfirst).1
      intro offer hoffer
      rcases List.mem_cons.1 hoffer with rfl | hoffer
      · exact (receive_cases hfirst).1
      · rw [← hcarries.grows.schema]
        exact ih hcarries.wellFormed h offer hoffer

/-- A pass over the deferred offers starts with none deferred, but every one of
them is placed or deferred again before it ends. -/
theorem carries_of_retryPass (hrun : run.store.WellFormed)
    (h : run.retryPass settings = .ok next) : Carries run next := by
  have hfold : run.deferred.foldlM (reconsider settings) { run with deferred := [] } = .ok next :=
    h
  have hempty : ({ run with deferred := [] } : Run).store.WellFormed := hrun
  obtain ⟨hcarries, hall⟩ := carries_of_foldlM carries_of_reconsider hempty hfold
  have hholds : ∀ {concept : Concept}, run.Holds concept → next.Holds concept := by
    rintro concept (hrepresents | ⟨offer, hmem, rfl⟩)
    · exact hcarries.holds (.inl hrepresents)
    · exact hall offer hmem
  exact { hcarries with holds := hholds }

theorem carries_of_retry (hrun : run.store.WellFormed) (h : run.retry settings = .ok next) :
    Carries run next := by
  fun_induction retry settings run with
  | case1 run error hpass => cases h
  | case2 run middle hpass hlt ih =>
      have hfirst := carries_of_retryPass hrun hpass
      exact hfirst.trans (ih hfirst.wellFormed h)
  | case3 run middle hpass hnlt =>
      cases h
      exact carries_of_retryPass hrun hpass

end ConceptExpansion.Run
