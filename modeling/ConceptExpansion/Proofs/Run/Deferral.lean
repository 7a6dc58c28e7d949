/-
# What becomes of deferred offers

Offers may come before what they refer to. Those whose key references lead nowhere yet are
deferred, and after each batch they are tried again, pass by pass, as long as a pass places
any. In the end exactly those have been handed to the store that a least set contains: the
least one with every offered concept whose key references lead to the store, to a sink kind
or to a concept of the set. All others are still deferred, and each waits for a key
reference that leads nowhere.

The least set does not look at the order of the offers, though every pass goes through them
in order, against a store that changes under it.
-/

import ConceptExpansion.Proofs.Run.Acceptance
import ConceptExpansion.Proofs.Store.Contents
import ConceptExpansion.Proofs.Store.History
import ConceptExpansion.Proofs.Store.Refusals

namespace ConceptExpansion

/-! ## The least set -/

namespace Offer

/-- The set of the concepts that are offered. -/
def conceptSet (offers : List Offer) : Set Concept :=
  {concept | ∃ offer ∈ offers, offer.concept = concept}

theorem mem_conceptSet_concat {offers : List Offer} {offer : Offer} {concept : Concept} :
    concept ∈ conceptSet (offers ++ [offer]) ↔
      concept ∈ conceptSet offers ∨ offer.concept = concept := by
  simp [conceptSet, or_and_right, exists_or]

/-- What the offers ask of a store. -/
def attempts (offers : List Offer) : List (Concept × Origin) :=
  offers.map fun offer => (offer.concept, offer.origin)

end Offer

/-- The set contains every offered concept whose key references lead to the store, to a
sink kind or to a concept of the set. -/
def Store.ClosedUnder (store : Store) (offered concepts : Set Concept) : Prop :=
  ∀ concept ∈ offered,
    (∀ target ∈ concept.keyRefs,
      store.Resolves target ∨ ∃ other ∈ concepts, other.key = target) →
    concept ∈ concepts

/-! ## What may be in the way -/

/-- The error with which an offer is refused though its key references lead somewhere. What
is stored or offered bears it out. -/
inductive Obstacle (settings : Settings) (store : Store) (offers : List Offer) :
    ExpansionError → Prop
  /-- Two concepts with one key differ in a plain attribute. -/
  | conflict {report : Conflict} {described : Concept} {offer : Offer} (hoffer : offer ∈ offers)
      (hdescribed : described ∈ store.concepts ∨ described ∈ Offer.conceptSet offers)
      (hkey : described.key = offer.concept.key)
      (hplain : store.schema.isCumulative offer.concept.kind report.attributeName = false)
      (hdiffers : described.attribute? report.attributeName ≠
        offer.concept.attribute? report.attributeName) :
      Obstacle settings store offers (.duplicateKeyConflict report)
  /-- There are more keys than a store has room for. -/
  | capacity {key : Key}
      (hfull : ∀ room : List Key, store.keys ⊆ room →
        (∀ offer ∈ offers, offer.concept.key ∈ room) → Store.capacity < room.length) :
      Obstacle settings store offers (.capacityExceeded key Store.capacity)
  /-- An offer is too far from the seeds. -/
  | depth {offer : Offer} {chain : List Key} (hoffer : offer ∈ offers)
      (hdeep : settings.maxDepth < offer.depth) :
      Obstacle settings store offers (.nonTerminating (.depth settings.maxDepth) chain)

/-- There is no obstacle if all concepts together can be stored and no offer is too far from
the seeds. -/
theorem not_obstacle_of_coherent {settings : Settings} {store : Store} {offers : List Offer}
    (hstore : store.WellFormed)
    (hcoherent : store.schema.Coherent fun concept =>
      concept ∈ store.concepts ∨ concept ∈ Offer.conceptSet offers)
    (hdepth : ∀ offer ∈ offers, offer.depth ≤ settings.maxDepth) (error : ExpansionError) :
    ¬ Obstacle settings store offers error := by
  intro hobstacle
  cases hobstacle with
  | @conflict report described offer hoffer hdescribed hkey hplain hdiffers =>
      have hkind : described.kind = offer.concept.kind := congrArg Key.kind hkey
      exact hdiffers
        (hcoherent.agree hdescribed (.inr ⟨offer, hoffer, rfl⟩) hkey _ (hkind ▸ hplain))
  | capacity hfull =>
      obtain ⟨room, hlength, hroom⟩ := hcoherent.fits
      have hstored : store.keys ⊆ room := fun key hkey => by
        obtain ⟨concept, hconcept, rfl⟩ :=
          store.spannedBy_concepts.exists_of_mem_keys hstore hkey
        exact hroom (.inl hconcept)
      have hlt := hfull room hstored fun offer hoffer => hroom (.inr ⟨offer, hoffer, rfl⟩)
      exact absurd hlength (Nat.not_le.2 hlt)
  | depth hoffer hdeep => exact absurd (hdepth _ hoffer) (Nat.not_le.2 hdeep)

namespace Run

variable {settings : Settings} {begun run next : Run} {offers handed rest : List Offer}
  {offer : Offer}

/-! ## Handing over -/

/-- The offers that have been handed to the store since `begun`, beside those that are
deferred and the `rest`. -/
structure HandsOver (begun : Run) (offers handed : List Offer) (run : Run) (rest : List Offer) :
    Prop where
  /-- Every offer has been handed over, is deferred or is still to come. -/
  divides : (handed ++ run.deferred ++ rest).Perm offers
  /-- The store has accepted each that was handed over. -/
  accepted : ∃ admissions : List Admission,
    begun.store.insertAll (Offer.attempts handed) = (admissions.map .ok, run.store)
  wellFormed : run.store.WellFormed
  grows : begun.store.Grows run.store
  spanned : run.store.SpannedBy fun concept =>
    concept ∈ begun.store.concepts ∨ concept ∈ Offer.conceptSet handed
  represents : ∀ concept ∈ Offer.conceptSet handed, run.store.Represents concept
  /-- Nothing has been handed over without need. -/
  needed : ∀ concepts, begun.store.ClosedUnder (Offer.conceptSet offers) concepts →
    Offer.conceptSet handed ⊆ concepts

namespace HandsOver

theorem start (hbegun : begun.store.WellFormed) :
    HandsOver begun (begun.deferred ++ offers) [] begun offers where
  divides := .rfl
  accepted := ⟨[], rfl⟩
  wellFormed := hbegun
  grows := .refl _
  spanned := begun.store.spannedBy_concepts.imp fun hconcept => .inl hconcept
  represents := by simp [Offer.conceptSet]
  needed := by simp [Offer.conceptSet]

theorem mem (h : HandsOver begun offers handed run (offer :: rest)) : offer ∈ offers := by
  apply h.divides.mem_iff.1
  simp

theorem conceptSet_subset (h : HandsOver begun offers handed run rest) :
    Offer.conceptSet handed ⊆ Offer.conceptSet offers := by
  rintro concept ⟨offer, hoffer, rfl⟩
  refine ⟨offer, h.divides.mem_iff.1 ?_, rfl⟩
  simp [hoffer]

theorem defer (h : HandsOver begun offers handed run (offer :: rest)) (stats : Stats) :
    HandsOver begun offers handed
      { run with deferred := run.deferred ++ [offer], stats := stats } rest :=
  { h with divides := by simpa using h.divides }

theorem pass (h : HandsOver begun offers handed run []) :
    HandsOver begun offers handed { run with deferred := [] } run.deferred :=
  { h with divides := by simpa using h.divides }

/-- The key of what is stored was stored to begin with or is that of an offer that has been
handed over. -/
theorem resolves_cases (h : HandsOver begun offers handed run rest)
    (hbegun : begun.store.WellFormed) {target : Key} (htarget : run.store.Resolves target) :
    begun.store.Resolves target ∨ ∃ other ∈ Offer.conceptSet handed, other.key = target := by
  obtain ⟨entry, hentry, rfl⟩ | ⟨kind, hkind, hsink⟩ := htarget
  · obtain ⟨source, hsource | hsource, hkey⟩ := h.spanned.exists_key h.wellFormed hentry
    · obtain ⟨stored, hstored, rfl⟩ := Store.mem_concepts.1 hsource
      exact .inl (.inl ⟨stored, hstored, (hbegun.concept_key_of_mem hstored).symm.trans hkey⟩)
    · exact .inr ⟨source, hsource, hkey⟩
  · rw [h.grows.schema] at hkind
    exact .inl (.inr ⟨kind, hkind, hsink⟩)

/-- An offer whose key references lead somewhere is needed. -/
theorem mem_of_closedUnder (h : HandsOver begun offers handed run rest)
    (hbegun : begun.store.WellFormed) (hoffer : offer ∈ offers)
    (hmissing : run.store.missingTarget? offer.concept = none) {concepts : Set Concept}
    (hclosed : begun.store.ClosedUnder (Offer.conceptSet offers) concepts) :
    offer.concept ∈ concepts := by
  refine hclosed _ ⟨offer, hoffer, rfl⟩ fun target htarget => ?_
  have hresolves := (Store.missingTarget?_eq_none_iff _ _).1 hmissing target htarget
  refine (h.resolves_cases hbegun (h.wellFormed.resolvable_iff.1 hresolves)).imp_right ?_
  rintro ⟨other, hother, hkey⟩
  exact ⟨other, h.needed concepts hclosed hother, hkey⟩

theorem insert (h : HandsOver begun offers handed run (offer :: rest))
    (hbegun : begun.store.WellFormed) {admission : Admission}
    {store : Store} (hmissing : run.store.missingTarget? offer.concept = none)
    (hinsert : run.store.insert offer.concept offer.origin = .ok (admission, store)) :
    HandsOver begun offers (handed ++ [offer]) (run.record offer store admission) rest := by
  have hwellFormed := h.wellFormed.insert hinsert
  have hgrows := h.wellFormed.grows_insert hinsert
  have hhanded : ∀ {concept : Concept}, concept ∈ Offer.conceptSet handed →
      concept ∈ Offer.conceptSet (handed ++ [offer]) := fun hconcept =>
    Offer.mem_conceptSet_concat.2 (.inl hconcept)
  constructor
  case divides =>
    have hmiddle : (handed ++ offer :: (run.deferred ++ rest)).Perm
        (handed ++ (run.deferred ++ offer :: rest)) :=
      List.perm_middle.symm.append_left handed
    rw [← List.append_assoc handed run.deferred] at hmiddle
    simpa using hmiddle.trans h.divides
  case accepted =>
    obtain ⟨admissions, haccepted⟩ := h.accepted
    refine ⟨admissions ++ [admission], ?_⟩
    rw [Offer.attempts, List.map_append, Store.insertAll_append,
      show begun.store.insertAll (handed.map _) = _ from haccepted]
    simp [Store.insertAll_cons_of_ok hinsert]
  case wellFormed => rwa [record_store]
  case grows =>
    rw [record_store]
    exact h.grows.trans hgrows
  case spanned =>
    rw [record_store]
    have hspanned : run.store.SpannedBy fun concept =>
        concept ∈ begun.store.concepts ∨ concept ∈ Offer.conceptSet (handed ++ [offer]) :=
      h.spanned.imp fun hconcept => hconcept.imp_right hhanded
    exact hspanned.insert h.wellFormed (.inr (Offer.mem_conceptSet_concat.2 (.inr rfl))) hinsert
  case represents =>
    intro concept hconcept
    rw [record_store]
    obtain hconcept | rfl := Offer.mem_conceptSet_concat.1 hconcept
    · exact (h.represents concept hconcept).grows hgrows h.wellFormed hwellFormed
    · exact h.wellFormed.represents_of_insert hinsert
  case needed =>
    intro concepts hclosed concept hconcept
    obtain hconcept | rfl := Offer.mem_conceptSet_concat.1 hconcept
    · exact h.needed concepts hclosed hconcept
    · exact h.mem_of_closedUnder hbegun h.mem hmissing hclosed

/-- Whoever refuses an offer whose key references lead somewhere has met an obstacle. -/
theorem obstacle (h : HandsOver begun offers handed run (offer :: rest))
    (hbegun : begun.store.WellFormed)
    (hvalid : ∃ kind, begun.store.schema.validate offer.concept = .ok kind)
    (hmissing : run.store.missingTarget? offer.concept = none) {cause : StoreError}
    (hinsert : run.store.insert offer.concept offer.origin = .error cause) :
    Obstacle settings begun.store offers (.ofStoreError cause) := by
  obtain ⟨kind, hkind⟩ := hvalid
  have hschema := h.grows.schema
  cases Store.refusal_of_insert hinsert with
  | invalid hinvalid =>
      rw [hschema, hkind] at hinvalid
      cases hinvalid
  | unresolved _ htarget => cases hmissing.symm.trans htarget
  | @conflict kind' entry name hvalid' _ hfind hname =>
      have hdifference := KindDef.disagreement?_eq_some_iff.1 hname
      obtain ⟨hget, hkey⟩ := h.wellFormed.find?_eq_some_iff.1 hfind
      obtain ⟨source, hsource, hsourceKey, hplain⟩ := (h.spanned _ _ hget).plain
      have hsame : entry.concept.key = offer.concept.key :=
        (h.wellFormed.concept_key hget).trans hkey
      have hname' : run.store.schema.isCumulative offer.concept.kind name = false :=
        (Schema.isCumulative_of_validate hvalid' name).trans hdifference.plain
      have hname'' : run.store.schema.isCumulative entry.concept.kind name = false := by
        rwa [show entry.concept.kind = offer.concept.kind from congrArg Key.kind hsame]
      refine .conflict h.mem (hsource.imp_right (h.conceptSet_subset ·))
        (hsourceKey.trans hsame) (hschema ▸ hname') fun heq => ?_
      exact hdifference.differs ((hplain name hname'').symm.trans heq)
  | full _ _ hnew hsize =>
      have hspanned : run.store.SpannedBy fun concept =>
          concept ∈ begun.store.concepts ∨ concept ∈ Offer.conceptSet offers :=
        h.spanned.imp fun hconcept => hconcept.imp_right (h.conceptSet_subset ·)
      refine .capacity fun room hstored hoffered => hsize.trans_lt ?_
      apply hspanned.size_lt_length h.wellFormed _ (.inr ⟨offer, h.mem, rfl⟩) hnew
      rintro concept (hconcept | ⟨other, hother, rfl⟩)
      · exact hstored (hbegun.key_mem_keys hconcept)
      · exact hoffered other hother

end HandsOver

/-- Offers that fit the schema are deferred or handed over, unless there is an obstacle. -/
theorem throughout_handsOver (settings : Settings) (hbegun : begun.store.WellFormed)
    (hvalid : ∀ offer ∈ offers, ∃ kind, begun.store.schema.validate offer.concept = .ok kind) :
    Throughout settings (Obstacle settings begun.store offers) fun run rest =>
      ∃ handed, HandsOver begun offers handed run rest where
  reject := by
    rintro run offer rest cause ⟨handed, hrun⟩ hinvalid
    obtain ⟨kind, hkind⟩ := hvalid offer hrun.mem
    rw [hrun.grows.schema, hkind] at hinvalid
    cases hinvalid
  defer := by
    rintro run offer rest target ⟨handed, hrun⟩ - deferrals
    exact ⟨handed, hrun.defer _⟩
  place := by
    rintro run offer rest ⟨handed, hrun⟩ hmissing
    refine ends_place (fun cause => hrun.obstacle hbegun (hvalid offer hrun.mem) hmissing)
      (fun _ _ _ _ hdeep => .depth hrun.mem hdeep) fun next hplaced => ?_
    obtain ⟨admission, store, hinsert, rfl⟩ := insert_of_place hplaced
    exact ⟨handed ++ [offer], hrun.insert hbegun hmissing hinsert⟩
  pass := by
    rintro run ⟨handed, hrun⟩
    exact ⟨handed, hrun.pass⟩

/-! ## The passes come to an end -/

/-- Tries the deferred offers that many times. -/
def passes (settings : Settings) : Nat → Run → Except ExpansionError Run
  | 0, run => .ok run
  | count + 1, run => run.retryPass settings >>= passes settings count

/-- If all that is deferred waits, a further pass changes nothing. -/
theorem retryPass_of_missing
    (h : ∀ offer ∈ run.deferred, run.store.missingTarget? offer.concept ≠ none) :
    run.retryPass settings = .ok run :=
  @reconsiderAll_of_missing settings { run with deferred := [] } run.deferred h

theorem passes_of_missing
    (h : ∀ offer ∈ run.deferred, run.store.missingTarget? offer.concept ≠ none) (count : Nat) :
    passes settings count run = .ok run := by
  induction count with
  | zero => rfl
  | succ count ih => rw [passes, bind_of_eq_ok (retryPass_of_missing h), ih]

/-- One pass for each deferred offer is enough, and more do no harm. -/
theorem passes_of_retry (h : run.retry settings = .ok next) {count : Nat}
    (hcount : run.deferred.length ≤ count) : passes settings count run = .ok next := by
  fun_induction retry settings run generalizing count with
  | case1 run error hpass => cases h
  | case2 run middle hpass hlt ih =>
      cases count with
      | zero => omega
      | succ count =>
          rw [passes, bind_of_eq_ok hpass]
          exact ih h (by omega)
  | case3 run middle hpass hnlt =>
      cases h
      have hwaits : ∀ offer ∈ run.deferred, run.store.missingTarget? offer.concept ≠ none :=
        fun offer hoffer hplaceable =>
          hnlt ((retryPass_lt_iff hpass).2 ⟨offer, hoffer, hplaceable⟩)
      cases hpass.symm.trans (retryPass_of_missing hwaits)
      exact passes_of_missing hwaits count

/-! ## What is handed over in the end -/

/-- Of the offers those that the least closed set contains have been handed to the store,
and the others wait. -/
structure Settles (begun : Run) (offers handed : List Offer) (next : Run) : Prop where
  /-- Every offer has been handed over, once, or is deferred. -/
  divides : (handed ++ next.deferred).Perm offers
  /-- The store has accepted each that was handed over, as new, merged or present. -/
  accepted : ∃ admissions : List Admission,
    begun.store.insertAll (Offer.attempts handed) = (admissions.map .ok, next.store)
  least : IsLeast {concepts | begun.store.ClosedUnder (Offer.conceptSet offers) concepts}
    (Offer.conceptSet handed)
  /-- Nothing that is deferred has been handed over, and each waits for a key reference. -/
  waits : ∀ offer ∈ next.deferred, offer.concept ∉ Offer.conceptSet handed ∧
    ∃ target ∈ offer.concept.keyRefs, ¬ next.store.Resolves target

/-- Where trying again has stopped, what has been handed over is closed. -/
theorem HandsOver.closedUnder (h : HandsOver begun offers handed next [])
    (hbegun : begun.store.WellFormed)
    (hwaits : ∀ offer ∈ next.deferred, next.store.missingTarget? offer.concept ≠ none) :
    begun.store.ClosedUnder (Offer.conceptSet offers) (Offer.conceptSet handed) := by
  rintro _ ⟨offer, hoffer, rfl⟩ hresolves
  have hmissing : next.store.missingTarget? offer.concept = none := by
    rw [Store.missingTarget?_eq_none_iff]
    intro target htarget
    obtain hresolves | ⟨other, hother, rfl⟩ := hresolves target htarget
    · exact h.grows.resolvable (hbegun.resolvable_iff.2 hresolves)
    · obtain ⟨entry, hentry, hkey, -⟩ := (h.represents other hother).exists_entry h.wellFormed
      exact h.wellFormed.resolvable_iff.2 (.inl ⟨entry, hentry, hkey⟩)
  have hmem := h.divides.mem_iff.2 hoffer
  rw [List.append_nil, List.mem_append] at hmem
  exact ⟨offer, hmem.resolve_right fun hdeferred => hwaits offer hdeferred hmissing, rfl⟩

theorem HandsOver.settles (h : HandsOver begun offers handed next [])
    (hbegun : begun.store.WellFormed)
    (hwaits : ∀ offer ∈ next.deferred, next.store.missingTarget? offer.concept ≠ none) :
    Settles begun offers handed next where
  divides := by simpa using h.divides
  accepted := h.accepted
  least := ⟨h.closedUnder hbegun hwaits, h.needed⟩
  waits := by
    intro offer hoffer
    obtain ⟨target, htarget⟩ := Option.ne_none_iff_exists'.1 (hwaits offer hoffer)
    have hfirst := h.wellFormed.missingTarget?_eq_some_iff.1 htarget
    refine ⟨fun hhanded => ?_, target, hfirst.mem, hfirst.not_resolves⟩
    obtain ⟨entry, hfind, -⟩ := h.represents _ hhanded
    exact hwaits offer hoffer (h.wellFormed.missingTarget?_of_find? hfind)

/-- Which concepts have been handed over does not depend on how often and in which order
they were offered. -/
theorem Settles.conceptSet_eq {begun' next' : Run} {offers' handed' : List Offer}
    (h : Settles begun offers handed next) (h' : Settles begun' offers' handed' next')
    (hstore : begun'.store = begun.store)
    (hoffers : Offer.conceptSet offers' = Offer.conceptSet offers) :
    Offer.conceptSet handed' = Offer.conceptSet handed := by
  have hleast := h'.least
  rw [hstore, hoffers] at hleast
  exact hleast.unique h.least

/-- To receive offers and to try again whatever is deferred, in whatever order they stand,
ends with a state in which exactly the least closed set has been handed over, unless an
obstacle is in the way of an offer. As many passes as there are offers are enough. -/
theorem exists_settles (hreach : run.store.Reachable)
    (hvalid : ∀ offer ∈ run.deferred ++ offers,
      ∃ kind, run.store.schema.validate offer.concept = .ok kind)
    (hclear : ∀ error, Obstacle settings run.store (run.deferred ++ offers) error →
      run.intake settings offers ≠ .error error) :
    ∃ next handed, run.intake settings offers = .ok next ∧
      (∀ count, (run.deferred ++ offers).length ≤ count →
        (offers.foldlM (receive settings) run >>= passes settings count) = .ok next) ∧
      Settles run (run.deferred ++ offers) handed next := by
  have hbegun := hreach.wellFormed
  have hthroughout := throughout_handsOver settings hbegun hvalid
  have hstart : ∃ handed, HandsOver run (run.deferred ++ offers) handed run offers :=
    ⟨[], .start hbegun⟩
  have hends := hthroughout.intake hstart
  cases hintake : run.intake settings offers with
  | error error => exact absurd hintake (hclear error (hends.of_error hintake))
  | ok next =>
      obtain ⟨handed, hnext⟩ := hends.of_ok hintake
      obtain ⟨received, hreceived, hretry⟩ := exists_of_bind_eq_ok hintake
      have hsettles := hnext.settles hbegun (missing_of_retry hretry)
      refine ⟨next, handed, rfl, fun count hcount => ?_, hsettles⟩
      obtain ⟨before, hmiddle⟩ := (hthroughout.receiveAll hstart).of_ok hreceived
      have hlength := hmiddle.divides.length_eq
      simp only [List.length_append, List.length_nil] at hlength hcount
      rw [bind_of_eq_ok hreceived]
      exact passes_of_retry hretry (by omega)

end Run

/-! ## A staircase -/

namespace Staircase

/-- Floors, stairs from somewhere to somewhere, and landmarks that need not be stored. -/
def schema : Schema :=
  .ofKinds [{ name := "Floor", keyFields := ["n"] }, { name := "Stair", keyFields := ["from"] },
    { name := "View", keyFields := ["of"], sink := true }]

/-- A floor, by number. -/
def floor (n : Int64) : Concept :=
  { kind := "Floor", fields := [.int n] }

/-- A stair that leads on from a place. -/
def stair (source : Concept) : Concept :=
  { kind := "Stair", fields := [.list [source.reference, .ref "View" [.string "sea"]]] }

/-- An offer of a concept by a rule. -/
def offered (concept : Concept) : Offer :=
  { concept := concept, origin := .seed 0, parent := none, depth := 1 }

/-- The ground floor is stored, and the third stair has been deferred. -/
def house : Run where
  store := ((Store.empty schema).insertAll [(floor 0, .seed 0)]).2
  deferred := [offered (stair (stair (stair (floor 0))))]

/-- Stairs from the top down, with two that start from a ninth floor that is missing. -/
def steps : List Offer :=
  [offered (stair (stair (floor 9))), offered (stair (stair (floor 0))),
    offered (stair (floor 9)), offered (stair (floor 0)), offered (stair (stair (floor 0)))]

theorem valid_of_steps : ∀ offer ∈ house.deferred ++ steps,
    ∃ kind, house.store.schema.validate offer.concept = .ok kind := by
  have hall : ((house.deferred ++ steps).all fun offer =>
      (house.store.schema.validate offer.concept).toOption.isSome) = true := by cbv
  intro offer hoffer
  have hsome := List.all_eq_true.1 hall offer hoffer
  cases hvalid : house.store.schema.validate offer.concept with
  | error cause => simp [hvalid, Except.toOption] at hsome
  | ok kind => exact ⟨kind, rfl⟩

/-- The stairs from the ground floor are stored, the lowest first and each of them once,
and those from the missing floor wait. -/
theorem house_settles : ∃ next handed, house.intake {} steps = .ok next ∧
    Run.Settles house (house.deferred ++ steps) handed next ∧
    next.store.concepts =
      [floor 0, stair (floor 0), stair (stair (floor 0)), stair (stair (stair (floor 0)))] ∧
    next.deferred.map (·.concept) = [stair (stair (floor 9)), stair (floor 9)] := by
  have hresult : ((house.intake {} steps).toOption.map fun next =>
      (next.store.concepts, next.deferred.map (·.concept))) =
      some ([floor 0, stair (floor 0), stair (stair (floor 0)),
          stair (stair (stair (floor 0)))],
        [stair (stair (floor 9)), stair (floor 9)]) := by cbv
  have hclear : ∀ error, Obstacle {} house.store (house.deferred ++ steps) error →
      house.intake {} steps ≠ .error error := by
    intro error _ herror
    simp [herror, Except.toOption] at hresult
  obtain ⟨next, handed, hintake, -, hsettles⟩ :=
    Run.exists_settles ((Store.Reachable.empty schema).insertAll _) valid_of_steps hclear
  rw [hintake] at hresult
  obtain ⟨hconcepts, hdeferred⟩ := Prod.mk.inj (Option.some.inj hresult)
  exact ⟨next, handed, hintake, hsettles, hconcepts, hdeferred⟩

end Staircase

end ConceptExpansion
