/-
# The chain of a ceiling error is a derivation

When a run breaks through a ceiling it reports the chain of keys from a seed to the concept
at which it did so. The chain is read off the parents that were recorded when concepts were
admitted, possibly batches after a rule had produced them. It is a derivation all the same:
it begins with a seed, repeats no key, and each key was returned by a rule that was invoked
during the run on the concept before it.

A chain has one key more than its last concept is steps away from the seeds. So a concept
that is one step too far is reported with two keys more than the depth that is allowed, and
the concept whose turn the budget does not cover, which is stored, with one more at most.
-/

import ConceptExpansion.Proofs.Expansion.Failing

namespace ConceptExpansion

namespace Run

variable {registry : Registry} {settings limits : Settings} {seeds : List Concept}
  {begun passed : List Run} {earlier run next : Run} {rest : List Offer} {offer : Offer}
  {id : ConceptId} {chain : List Key}

/-! ## Derivations -/

/-- In one of the batches that have been carried out a rule for the kind of the first key
was invoked on the concept stored under it, and has returned a concept with the second
key. -/
def Derives (registry : Registry) (settings : Settings) (begun : List Run)
    (first second : Key) : Prop :=
  ∃ run ∈ begun, run.Covered registry settings ∧
    ∃ job ∈ run.batchJobs registry, job.rule ∈ registry.rulesFor first.kind ∧
      ∃ source, run.store.get? job.source = some source ∧ source.key = first ∧
        ∃ products, job.rule.expand source.concept run.store = .ok products ∧
          ∃ product ∈ products, product.key = second

/-- The keys lead from a seed on, each derived from the one before, and none of them
twice. -/
structure Derivation (registry : Registry) (settings : Settings) (seeds : List Concept)
    (begun : List Run) (chain : List Key) : Prop where
  seeded : ∃ seed ∈ seeds, chain.head? = some seed.key
  distinct : chain.Nodup
  derived : chain.IsChain (Derives registry settings begun)

theorem Derivation.mono {begun' : List Run} (h : Derivation registry settings seeds begun chain)
    (hbegun : begun ⊆ begun') : Derivation registry settings seeds begun' chain where
  seeded := h.seeded
  distinct := h.distinct
  derived := h.derived.imp fun _ _ ⟨run, hrun, hderives⟩ => ⟨run, hbegun hrun, hderives⟩

/-! ## Following parents -/

/-- To follow parents from the concept leads back along the chain, to a concept that has
none. -/
inductive Descends (run : Run) : ConceptId → List Key → Prop
  | root {id : ConceptId} {entry : Entry} (hget : run.store.get? id = some entry)
      (hparent : run.parentOf? id = none) : Descends run id [entry.key]
  | child {id parent : ConceptId} {entry : Entry} {chain : List Key}
      (hget : run.store.get? id = some entry) (hparent : run.parentOf? id = some parent)
      (h : Descends run parent chain) : Descends run id (chain ++ [entry.key])

namespace Descends

theorem ancestry_eq (h : Descends run id chain) {steps : Nat} (hsteps : chain.length ≤ steps) :
    run.ancestry steps id = chain.reverse := by
  induction h generalizing steps with
  | root hget hparent =>
      cases steps with
      | zero => cases hsteps
      | succ steps => simp [ancestry, hget, hparent]
  | child hget hparent _ ih =>
      rw [List.length_append, List.length_singleton] at hsteps
      cases steps with
      | zero => cases hsteps
      | succ steps =>
          have hrest := ih (Nat.le_of_succ_le_succ hsteps)
          simp [ancestry, hget, hparent, hrest]

/-- A chain that is no longer than the store is the one that is reported. -/
theorem chain_eq (h : Descends run id chain) (hsize : chain.length ≤ run.store.size) :
    run.chain id = chain := by
  rw [Run.chain, h.ancestry_eq hsize, List.reverse_reverse]

end Descends

/-! ## States that go on from earlier ones -/

/-- The state has all the concepts of the earlier one, with the same parents and depths. -/
structure GoesOn (earlier run : Run) : Prop where
  wellFormed : earlier.store.WellFormed
  grows : earlier.store.Grows run.store
  lineage : Extends earlier run

theorem GoesOn.of_same (h : GoesOn earlier run) (hsame : SameLineage next run) :
    GoesOn earlier next where
  wellFormed := h.wellFormed
  grows := hsame.store ▸ h.grows
  lineage :=
    { size_le := hsame.store ▸ h.lineage.size_le
      parentOf? := fun hid => (hsame.parentOf? _).trans (h.lineage.parentOf? hid)
      depthOf := fun hid => (hsame.depthOf _).trans (h.lineage.depthOf hid) }

theorem GoesOn.place (h : GoesOn earlier run) (hrun : run.store.WellFormed)
    (haligned : run.Aligned) (hplaced : run.place settings offer = .ok next) :
    GoesOn earlier next where
  wellFormed := h.wellFormed
  grows := h.grows.trans (carries_of_place hrun hplaced).1.grows
  lineage := h.lineage.trans ((appends_of_place hplaced).extends_of_aligned haligned)

theorem Course.goesOn (h : Course registry settings seeds passed run)
    (hearlier : earlier ∈ passed) : GoesOn earlier run := by
  obtain ⟨before, hbefore, hgrows⟩ := h.of_mem hearlier
  exact ⟨hbefore.reachable.accounts.wellFormed, hgrows, h.extends_of_mem hearlier⟩

/-! ## Chains of stored concepts -/

/-- What is known of the states whose batches have been begun, when offers are taken in. -/
structure Documented (registry : Registry) (settings limits : Settings) (seeds : List Concept)
    (begun : List Run) (run : Run) (rest : List Offer) : Prop where
  attributed : Attributed registry limits seeds begun run rest
  goesOn : ∀ earlier ∈ begun, GoesOn earlier run
  covered : ∀ earlier ∈ begun, earlier.Covered registry settings

/-- A stored concept has no parent and the key of a seed, or it was returned by a rule that a
batch has invoked on its parent. No more was stored when the batch began than is older than
the concept. -/
theorem Documented.issued_cases (h : Documented registry settings limits seeds begun run rest)
    {entry : Entry} (hget : run.store.get? id = some entry) :
    (run.parentOf? id = none ∧ run.depthOf id = 0 ∧ ∃ seed ∈ seeds, seed.key = entry.key) ∨
    ∃ earlier ∈ begun, earlier.store.size ≤ id.index ∧
      ∃ job ∈ earlier.batchJobs registry, run.parentOf? id = some job.source ∧
        run.depthOf id = run.depthOf job.source + 1 ∧
        ∃ source, earlier.store.get? job.source = some source ∧
          job.rule ∈ registry.rulesFor source.key.kind ∧
          ∃ products, job.rule.expand source.concept earlier.store = .ok products ∧
            ∃ product ∈ products, product.key = entry.key := by
  obtain ⟨offer, hissued, hbecame⟩ := h.attributed.stored hget
  obtain rfl : entry.id = id := h.attributed.wellFormed.id_of_get? hget
  cases hissued with
  | @seed position seed hseed =>
      exact .inl ⟨hbecame.parent, hbecame.depth, seed, List.mem_of_getElem? hseed, hbecame.key⟩
  | @product earlier job source products concept hearlier hbound hjob hsource hproducts hconcept =>
      obtain ⟨hwellFormed, -, hextends⟩ := h.goesOn earlier hearlier
      obtain ⟨source', hsource', hrule⟩ := fitting_batchJobs registry hwellFormed job hjob
      obtain rfl : source' = source := Option.some.inj (hsource'.symm.trans hsource)
      have hkind : source'.concept.kind = source'.key.kind :=
        congrArg Key.kind (hwellFormed.concept_key hsource)
      refine .inr ⟨earlier, hearlier, hbound, job, hjob, hbecame.parent, ?_, source', hsource,
        hkind ▸ hrule, products, hproducts, concept, hconcept, hbecame.key⟩
      rw [hextends.depthOf (index_lt_of_get? hsource)]
      exact hbecame.depth

/-- A stored concept has no parent and the key of a seed, or its parent is older and one
step nearer to the seeds, and it was derived from the parent. -/
theorem Documented.parent_cases (h : Documented registry settings limits seeds begun run rest)
    {entry : Entry} (hget : run.store.get? id = some entry) :
    (run.parentOf? id = none ∧ run.depthOf id = 0 ∧ ∃ seed ∈ seeds, seed.key = entry.key) ∨
    ∃ parent source, run.parentOf? id = some parent ∧ parent.index < id.index ∧
      run.store.get? parent = some source ∧ run.depthOf id = run.depthOf parent + 1 ∧
      Derives registry settings begun source.key entry.key := by
  refine (h.issued_cases hget).imp_right ?_
  rintro ⟨earlier, hearlier, hbound, job, hjob, hparent, hdepth, source, hsource, hrule, products,
    hproducts, product, hproduct, hkey⟩
  obtain ⟨later, hlater, hkey', -⟩ := (h.goesOn earlier hearlier).grows.entry hsource
  refine ⟨job.source, later, hparent, (index_lt_of_get? hsource).trans_le hbound, hlater, hdepth,
    ?_⟩
  exact ⟨earlier, hearlier, h.covered earlier hearlier, job, hjob, hkey' ▸ hrule, source, hsource,
    hkey'.symm, products, hproducts, product, hproduct, hkey⟩

/-- The concept is stored under the key, and following parents from it leads along the
chain. The chain derives the key in as many steps as the concept is away from the seeds, by
way of concepts that are no younger. -/
structure Lineal (registry : Registry) (settings : Settings) (seeds : List Concept)
    (begun : List Run) (run : Run) (id : ConceptId) (key : Key) (chain : List Key) : Prop where
  stored : run.store.idOf? key = some id
  descends : run.Descends id chain
  derivation : Derivation registry settings seeds begun chain
  length : chain.length = run.depthOf id + 1
  last : chain.getLast? = some key
  older : ∀ other ∈ chain, ∃ older, run.store.idOf? other = some older ∧ older.index ≤ id.index

theorem lineal_root (hrun : run.store.WellFormed) {entry : Entry}
    (hget : run.store.get? id = some entry) (hparent : run.parentOf? id = none)
    (hdepth : run.depthOf id = 0) {seed : Concept} (hseed : seed ∈ seeds)
    (hkey : seed.key = entry.key) :
    Lineal registry settings seeds begun run id entry.key [entry.key] := by
  have hid : run.store.idOf? entry.key = some id :=
    hrun.idOf?_eq_some_iff.2 ⟨entry, hget, rfl⟩
  refine ⟨hid, .root hget hparent, ⟨⟨seed, hseed, congrArg some hkey.symm⟩,
    List.nodup_singleton _, List.isChain_singleton _⟩, by rw [hdepth]; rfl, rfl, ?_⟩
  intro other hother
  obtain rfl := List.mem_singleton.1 hother
  exact ⟨id, hid, le_rfl⟩

theorem Lineal.child {parent : ConceptId} {key : Key}
    (h : Lineal registry settings seeds begun run parent key chain)
    (hrun : run.store.WellFormed) {entry : Entry} (hget : run.store.get? id = some entry)
    (hparent : run.parentOf? id = some parent) (holder : parent.index < id.index)
    (hdepth : run.depthOf id = run.depthOf parent + 1)
    (hderives : Derives registry settings begun key entry.key) :
    Lineal registry settings seeds begun run id entry.key (chain ++ [entry.key]) := by
  have hid : run.store.idOf? entry.key = some id :=
    hrun.idOf?_eq_some_iff.2 ⟨entry, hget, rfl⟩
  -- All keys of the chain so far are those of older concepts.
  have hnew : entry.key ∉ chain := fun hmem => by
    obtain ⟨older, holder', hle⟩ := h.older _ hmem
    obtain rfl : id = older := Option.some.inj (hid.symm.trans holder')
    exact absurd holder (Nat.not_lt.2 hle)
  refine ⟨hid, .child hget hparent h.descends, ⟨?_, ?_, ?_⟩, ?_, List.getLast?_concat, ?_⟩
  · obtain ⟨seed, hseed, hhead⟩ := h.derivation.seeded
    refine ⟨seed, hseed, ?_⟩
    rw [List.head?_append, hhead]
    rfl
  · exact List.concat_eq_append ▸ h.derivation.distinct.concat hnew
  · refine List.isChain_append.2 ⟨h.derivation.derived, List.isChain_singleton _, ?_⟩
    intro first hfirst second hsecond
    obtain rfl : key = first := Option.some.inj (h.last.symm.trans hfirst)
    obtain rfl : entry.key = second := Option.some.inj hsecond
    exact hderives
  · rw [List.length_append, List.length_singleton, h.length, hdepth]
  · intro other hother
    rcases List.mem_append.1 hother with hmem | hmem
    · obtain ⟨older, holder', hle⟩ := h.older other hmem
      exact ⟨older, holder', hle.trans holder.le⟩
    · obtain rfl := List.mem_singleton.1 hmem
      exact ⟨id, hid, le_rfl⟩

/-- No chain is longer than the store, so it is followed to its end. -/
theorem Lineal.chain_eq {key : Key} (h : Lineal registry settings seeds begun run id key chain)
    (hrun : run.store.WellFormed) : run.chain id = chain := by
  apply h.descends.chain_eq
  have hstored : chain ⊆ run.store.keys := by
    intro other hother
    obtain ⟨older, holder, -⟩ := h.older other hother
    obtain ⟨found, hfound, rfl⟩ := hrun.idOf?_eq_some_iff.1 holder
    exact hrun.mem_keys.2 ⟨found, hrun.find?_of_get? hfound⟩
  rw [← hrun.length_keys]
  exact (List.subperm_of_subset h.derivation.distinct hstored).length_le

/-- The chain of a stored concept is a derivation of its key. -/
theorem Documented.lineal (h : Documented registry settings limits seeds begun run rest)
    {entry : Entry} (hget : run.store.get? id = some entry) :
    Lineal registry settings seeds begun run id entry.key (run.chain id) := by
  have hrun := h.attributed.wellFormed
  have hexists : ∃ chain, Lineal registry settings seeds begun run id entry.key chain := by
    -- Parents are older than what was derived from them.
    induction hindex : id.index using Nat.strong_induction_on generalizing id entry with
    | _ index ih =>
        subst hindex
        rcases h.parent_cases hget with ⟨hparent, hdepth, seed, hseed, hkey⟩ |
          ⟨parent, source, hparent, holder, hsource, hdepth, hderives⟩
        · exact ⟨_, lineal_root hrun hget hparent hdepth hseed hkey⟩
        · obtain ⟨chain, hchain⟩ := ih parent.index holder hsource rfl
          exact ⟨_, hchain.child hrun hget hparent holder hdepth hderives⟩
  obtain ⟨chain, hchain⟩ := hexists
  rwa [hchain.chain_eq hrun]

/-! ## Concepts that are too far from the seeds -/

/-- What is known of an error when an offer is taken in: the chain along which the depth is
exceeded is a derivation of one step too many. -/
def DepthExplained (registry : Registry) (settings : Settings) (seeds : List Concept)
    (begun : List Run) : ExpansionError → Prop
  | .nonTerminating (.depth limit) chain =>
    limit = settings.maxDepth ∧ chain.length = limit + 2 ∧
      Derivation registry settings seeds begun chain
  | _ => True

/-- What is known of an error when an offer is taken in. If it is that the depth is exceeded,
the concept at which it is has been stored one step further from the seeds than the settings
allow, in a state that other limits would have let pass, and the chain leads to it there. -/
def Overreaches (registry : Registry) (settings : Settings) (seeds : List Concept)
    (begun : List Run) : ExpansionError → Prop
  | .nonTerminating (.depth limit) chain =>
    limit = settings.maxDepth ∧ ∃ limits run rest id entry,
      Documented registry settings limits seeds begun run rest ∧
        run.store.get? id = some entry ∧ run.depthOf id = limit + 1 ∧ chain = run.chain id
  | _ => True

/-- A new concept has the next identifier. -/
theorem exists_entry_of_insert_new {store later : Store} {concept : Concept} {origin : Origin}
    {admission : Admission} (h : store.insert concept origin = .ok (admission, later))
    (hnew : admission.isNew = true) :
    admission.id.index = store.size ∧ ∃ entry, later.get? admission.id = some entry := by
  obtain ⟨kind, -, -, hinsertion⟩ := Store.insert_eq_ok_iff.1 h
  cases hinsertion with
  | admitted hid hfresh =>
      have hindex := Store.index_of_ofIndex? hid
      exact ⟨hindex, _, (Store.get?_push _ _ _).trans (if_pos hindex)⟩
  | alreadyPresent | merged => cases hnew

theorem depthOf_record_of_new (haligned : run.Aligned) {store : Store} {admission : Admission}
    (hinsert : run.store.insert offer.concept offer.origin = .ok (admission, store))
    (hnew : admission.isNew = true) :
    (run.record offer store admission).depthOf admission.id = offer.depth := by
  have hindex := (exists_entry_of_insert_new hinsert hnew).1
  cases admission with
  | admitted id =>
      rw [depthOf_eq, hindex, ← haligned]
      simp [record]
  | alreadyPresent | merged => cases hnew

/-- No offer is more than one step further from the seeds than the settings allow. -/
theorem Documented.depth_le
    (h : Documented registry settings limits seeds begun run (offer :: rest)) :
    offer.depth ≤ limits.maxDepth + 1 := by
  have hissued := h.attributed.waiting offer (List.mem_append_right _ List.mem_cons_self)
  cases hissued with
  | seed => exact Nat.zero_le _
  | @product earlier job described products concept hearlier _ _ hdescribed =>
      obtain ⟨-, hgrows, hextends⟩ := h.goesOn earlier hearlier
      obtain ⟨source, hsource, -⟩ := hgrows.entry hdescribed
      obtain ⟨parent, -, hbecame⟩ := h.attributed.stored hsource
      have hdepth := hextends.depthOf (index_lt_of_get? hdescribed)
      rw [← h.attributed.wellFormed.id_of_get? hsource] at hdepth ⊢
      rw [← hdepth, hbecame.depth]
      exact Nat.succ_le_succ hbecame.shallow

/-- Higher limits allow no less. -/
theorem Documented.raise (h : Documented registry settings limits seeds begun run rest)
    (limits' : Settings) (hlimits : limits.maxDepth ≤ limits'.maxDepth) :
    Documented registry settings limits' seeds begun run rest where
  attributed :=
    { h.attributed with
      stored := fun hget => by
        obtain ⟨offer, hissued, hbecame⟩ := h.attributed.stored hget
        exact ⟨offer, hissued, { hbecame with shallow := hbecame.shallow.trans hlimits }⟩ }
  goesOn := h.goesOn
  covered := h.covered

theorem Documented.place (h : Documented registry settings limits seeds begun run (offer :: rest))
    (hplaced : run.place limits offer = .ok next) :
    Documented registry settings limits seeds begun next rest where
  attributed := h.attributed.place hplaced
  goesOn earlier hearlier :=
    (h.goesOn earlier hearlier).place h.attributed.wellFormed h.attributed.aligned hplaced
  covered := h.covered

/-- A concept that is too far from the seeds would have been stored under higher limits. -/
theorem Documented.tooDeep
    (h : Documented registry settings settings seeds begun run (offer :: rest)) {store : Store}
    {admission : Admission}
    (hinsert : run.store.insert offer.concept offer.origin = .ok (admission, store))
    (hnew : admission.isNew = true) (hdeep : settings.maxDepth < offer.depth) :
    Overreaches registry settings seeds begun (.nonTerminating (.depth settings.maxDepth)
      ((run.record offer store admission).chain admission.id)) := by
  have hdepth : offer.depth = settings.maxDepth + 1 := Nat.le_antisymm h.depth_le hdeep
  -- With the ceiling at its own depth the offer would have been placed.
  let raised : Settings := { settings with maxDepth := offer.depth }
  have hplaced : run.place raised offer = .ok (run.record offer store admission) := by
    rw [place_eq, hinsert]
    exact if_neg fun hexceeds => lt_irrefl _ hexceeds.2
  have hnext := (h.raise raised hdeep.le).place hplaced
  obtain ⟨-, entry, hget⟩ := exists_entry_of_insert_new hinsert hnew
  refine ⟨rfl, raised, _, rest, admission.id, entry, hnext, by rwa [record_store], ?_, rfl⟩
  rw [depthOf_record_of_new h.attributed.aligned hinsert hnew, hdepth]

/-- A concept that is too far from the seeds is reported along a derivation. -/
theorem Overreaches.depthExplained {error : ExpansionError}
    (h : Overreaches registry settings seeds begun error) :
    DepthExplained registry settings seeds begun error := by
  unfold Overreaches at h
  split at h
  · obtain ⟨hlimit, limits, run, rest, id, entry, hdocumented, hget, hdepth, rfl⟩ := h
    have hlineal := hdocumented.lineal hget
    exact ⟨hlimit, by rw [hlineal.length, hdepth], hlineal.derivation⟩
  · next hother =>
      unfold DepthExplained
      split
      · exact absurd rfl (hother _ _)
      · trivial

/-- While offers are taken in, an excess of depth is one by a single step. -/
theorem throughout_overreaches
    (hcovered : ∀ earlier ∈ begun, earlier.Covered registry settings) :
    Throughout settings (Overreaches registry settings seeds begun) fun run rest =>
      Attributed registry settings seeds begun run rest ∧
        ∀ earlier ∈ begun, GoesOn earlier run where
  reject {run offer rest cause} _ _ := by
    unfold Offer.rejection
    split <;> trivial
  defer hrun hmissing deferrals :=
    ⟨(throughout_attributed registry settings seeds begun).defer hrun.1 hmissing deferrals, fun
      earlier hearlier => (hrun.2 earlier hearlier).of_same (.of_eq hrun.1.aligned rfl rfl)⟩
  place {run offer rest} hrun hmissing := by
    have hdocumented : Documented registry settings settings seeds begun run (offer :: rest) :=
      ⟨hrun.1, hrun.2, hcovered⟩
    refine ends_place (fun cause _ => ?_) (fun _ _ => hdocumented.tooDeep) fun next hplaced => ?_
    · cases cause <;> trivial
    · have hnext := hdocumented.place hplaced
      exact ⟨hnext.attributed, hnext.goesOn⟩
  pass hrun :=
    ⟨(throughout_attributed registry settings seeds begun).pass hrun.1, fun
      earlier hearlier => (hrun.2 earlier hearlier).of_same (.of_eq hrun.1.aligned rfl rfl)⟩

/-! ## Where a run breaks through a ceiling -/

theorem Course.goesOn_last (h : Course registry settings seeds passed run)
    (hsame : SameLineage next run) : ∀ earlier ∈ passed ++ [run], GoesOn earlier next := by
  intro earlier hearlier
  apply GoesOn.of_same _ hsame
  rcases List.mem_append.1 hearlier with hpassed | hlast
  · exact h.goesOn hpassed
  · rw [List.mem_singleton.1 hlast]
    exact ⟨h.reachable.accounts.wellFormed, .refl _, .refl _⟩

theorem FailsAfter.overreaches {error : ExpansionError}
    (h : FailsAfter registry settings seeds begun error)
    (hcovered : ∀ earlier ∈ begun, earlier.Covered registry settings) :
    Overreaches registry settings seeds begun error := by
  cases h with
  | start h =>
      exact ((throughout_overreaches hcovered).start
        ⟨attributed_beforeSeeds registry settings seeds,
          fun _ hearlier => absurd hearlier List.not_mem_nil⟩).of_error h
  | step hcourse hstep =>
      exact hcourse.error_of_step (throughout_overreaches hcovered)
        (fun _ hsame => hcourse.goesOn_last hsame) (fun _ _ => trivial) (fun _ _ _ => trivial) hstep
  | finish hcourse hphase h =>
      obtain ⟨concept, origin, target, rfl⟩ := unresolved_of_finish h
      trivial

theorem FailsAfter.depthExplained {error : ExpansionError}
    (h : FailsAfter registry settings seeds begun error)
    (hcovered : ∀ earlier ∈ begun, earlier.Covered registry settings) :
    DepthExplained registry settings seeds begun error :=
  (h.overreaches hcovered).depthExplained

/-- The key is that of the concept whose turn it is in the batch when the budget that is
left has been used up. -/
def FirstUncovered (registry : Registry) (settings : Settings) (run : Run) (key : Key) : Prop :=
  ∃ before job after, run.batchJobs registry = before ++ job :: after ∧
    before.length = run.budgetLeft settings ∧ run.store.keyOf? job.source = some key

/-- A run out of budget reports the chain of the first concept that is not paid for. -/
theorem FailsAfter.exists_uncovered {limit : Nat}
    (h : FailsAfter registry settings seeds begun (.nonTerminating (.expansions limit) chain)) :
    ∃ passed run, begun = passed ++ [run] ∧ Course registry settings seeds passed run ∧
      ∃ before job after, run.batchJobs registry = before ++ job :: after ∧
        before.length = run.budgetLeft settings ∧ chain = run.chain job.source := by
  have hbatch : ∀ (opened run : Run) (jobs : List Job), SameLineage opened run →
      opened.runBatch settings jobs = .error (.nonTerminating (.expansions limit) chain) →
      ∃ before job after, jobs = before ++ job :: after ∧
        before.length = opened.budgetLeft settings ∧ chain = run.chain job.source := by
    intro opened run jobs hsame hfails
    by_cases hbudget : jobs.length ≤ opened.budgetLeft settings
    · exact absurd rfl ((notOverrun_of_runBatch hbudget).of_error hfails limit chain)
    · have hlt := Nat.not_le.1 hbudget
      rw [runBatch_of_lt hlt] at hfails
      cases hfails
      refine ⟨jobs.take (opened.budgetLeft settings), jobs[opened.budgetLeft settings],
        jobs.drop (opened.budgetLeft settings + 1), ?_, ?_, ?_⟩
      · rw [List.getElem_cons_drop, List.take_append_drop]
      · exact List.length_take_of_le hlt.le
      · exact chain_congr hsame.store hsame.parentOf? _
  cases h with
  | start h => exact absurd rfl ((notOverrun_of_start _ _ _).of_error h limit chain)
  | @step passed run _ hcourse hstep =>
      refine ⟨passed, run, rfl, hcourse, ?_⟩
      have haligned := hcourse.reachable.aligned
      rcases step_eq_error_iff.1 hstep with ⟨hphase, -, hfails⟩ | ⟨hphase, -, hfails⟩
      · rw [batchJobs_of_expanding hphase]
        exact hbatch run.beginWave run _ (.beginWave haligned) hfails
      · rw [batchJobs_of_reviewing hphase]
        exact hbatch run.beginReview run _ (.beginReview haligned) hfails
  | finish hcourse hphase h =>
      exact absurd rfl ((notOverrun_of_finish _).of_error h limit chain)

/-- Between two batches all that has been passed is known. -/
theorem Course.documented (h : Course registry settings seeds passed run) :
    Documented registry settings settings seeds passed run [] where
  attributed := h.attributed
  goesOn _ hearlier := h.goesOn hearlier
  covered _ hearlier := h.covered_of_mem hearlier

/-- What the chain says of a run that has used up its budget. -/
theorem Course.chain_uncovered (h : Course registry settings seeds passed run)
    {before after : List Job} {job : Job}
    (hjobs : run.batchJobs registry = before ++ job :: after) :
    ∃ key, run.store.keyOf? job.source = some key ∧
      Derivation registry settings seeds passed (run.chain job.source) ∧
      (run.chain job.source).length ≤ settings.maxDepth + 1 ∧
      (run.chain job.source).getLast? = some key := by
  have hjob : job ∈ run.batchJobs registry := by
    rw [hjobs]
    exact List.mem_append_right _ List.mem_cons_self
  obtain ⟨entry, hget, -⟩ := fitting_batchJobs registry h.attributed.wellFormed job hjob
  have hlineal := h.documented.lineal hget
  obtain ⟨offer, -, hbecame⟩ := h.attributed.stored hget
  refine ⟨entry.key, by rw [Store.keyOf?, hget]; rfl, hlineal.derivation, ?_, hlineal.last⟩
  rw [hlineal.length, ← h.attributed.wellFormed.id_of_get? hget, hbecame.depth]
  exact Nat.succ_le_succ hbecame.shallow

end Run

/-- A run that breaks through a ceiling reports a derivation: it begins with a seed, repeats
no key, and each key was returned by a rule that was invoked during the run on the concept
before it. If the depth is exceeded, the chain has two keys more than the depth that is
allowed. If the budget is, it ends with the first concept that the budget does not cover,
and has at most one key more than the depth that is allowed. -/
theorem expand_ceiling_derived {registry : Registry} {settings : Settings}
    {seeds : List Concept} {ceiling : Ceiling} {chain : List Key}
    (h : registry.expand settings seeds = .error (.nonTerminating ceiling chain)) :
    ∃ begun, Run.FailsAfter registry settings seeds begun (.nonTerminating ceiling chain) ∧
      Run.Derivation registry settings seeds begun chain ∧
      (∀ limit, ceiling = .depth limit →
        limit = settings.maxDepth ∧ chain.length = limit + 2) ∧
      ∀ limit, ceiling = .expansions limit →
        1 ≤ chain.length ∧ chain.length ≤ settings.maxDepth + 1 ∧
          ∃ passed run key, begun = passed ++ [run] ∧ chain.getLast? = some key ∧
            run.FirstUncovered registry settings key := by
  obtain ⟨begun, hfails⟩ := Run.expand_eq_error_iff.1 h
  refine ⟨begun, hfails, ?_⟩
  cases ceiling with
  | depth limit =>
      have hcovered : ∀ earlier ∈ begun, earlier.Covered registry settings :=
        fun earlier hearlier => hfails.covered (fun _ _ hover => by cases hover) hearlier
      obtain ⟨hlimit, hlength, hderivation⟩ := hfails.depthExplained hcovered
      refine ⟨hderivation, ?_, nofun⟩
      intro other hceiling
      cases hceiling
      exact ⟨hlimit, hlength⟩
  | expansions limit =>
      obtain ⟨passed, run, rfl, hcourse, before, job, after, hjobs, hbefore, rfl⟩ :=
        hfails.exists_uncovered
      obtain ⟨key, hkey, hderivation, hlength, hlast⟩ := hcourse.chain_uncovered hjobs
      refine ⟨hderivation.mono (List.subset_append_left _ _), nofun, ?_⟩
      intro other _
      refine ⟨?_, hlength, passed, run, key, rfl, hlast, before, job, after, hjobs, hbefore, hkey⟩
      apply List.length_pos_iff.2
      intro hnil
      rw [hnil] at hlast
      cases hlast

/-! ## An almanac -/

namespace Almanac

/-- A day, by number. -/
def day (n : Int64) : Concept :=
  { kind := "D", fields := [.int n] }

/-- The forecast for a day. -/
def forecast (n : Int64) : Concept :=
  { kind := "F", fields := [(day n).reference] }

/-- A day is followed by the next one, and the one after that is forecast before it comes. -/
def tomorrow : Rule where
  name := "tomorrow"
  expand concept _ :=
    match concept.fields with
    | [.int n] => .ok [forecast (n + 2), day (n + 1)]
    | _ => .ok []

/-- Days without end, and their forecasts. -/
def registry : Registry where
  schema := .ofKinds [{ name := "D", keyFields := ["n"] }, { name := "F", keyFields := ["of"] }]
  rules := .ofList [("D", [tomorrow])]

/-- Two steps are allowed, and the third is reported with all that led to it. With a budget
of one invocation the second day is the first one whose rule is not invoked any more. -/
theorem expand_almanac :
    (∃ begun, Run.Derivation registry { maxDepth := 2 } [day 1] begun
      [(day 1).key, (day 2).key, (day 3).key, (day 4).key]) ∧
    ∃ begun, Run.Derivation registry { maxExpansions := 1 } [day 1] begun
        [(day 1).key, (day 2).key] ∧
      ∃ passed run key, begun = passed ++ [run] ∧ some (day 2).key = some key ∧
        run.FirstUncovered registry { maxExpansions := 1 } key := by
  have hdepth : registry.expand { maxDepth := 2 } [day 1] = .error (.nonTerminating (.depth 2)
      [(day 1).key, (day 2).key, (day 3).key, (day 4).key]) :=
    Run.expand_of_after_error (show Run.after registry { maxDepth := 2 } [day 1] 3 = _ by cbv)
  have hbudget : registry.expand { maxExpansions := 1 } [day 1] =
      .error (.nonTerminating (.expansions 1) [(day 1).key, (day 2).key]) :=
    Run.expand_of_after_error (show Run.after registry { maxExpansions := 1 } [day 1] 2 = _ by cbv)
  obtain ⟨begun, -, hderivation, -, -⟩ := expand_ceiling_derived hdepth
  obtain ⟨begun', -, hderivation', -, huncovered⟩ := expand_ceiling_derived hbudget
  obtain ⟨-, -, hlast⟩ := huncovered 1 rfl
  exact ⟨⟨begun, hderivation⟩, begun', hderivation', hlast⟩

end Almanac

end ConceptExpansion
