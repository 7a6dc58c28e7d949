/-
# Offers of one key may be exchanged

Two offers that describe one key may be taken in in either order. If the key is
stored, both descriptions are merged into what is stored, unless one of them
contradicts it. If it is new, whichever offer comes first is stored and the
other merged into it. In both cases merging in any order gives the same payload,
and a contradiction is found in either order, though it may be reported between
other descriptions.
-/

import ConceptExpansion.Proofs.Run.Twin

namespace ConceptExpansion

/-- The entry with a further description merged into it. -/
def Entry.extend (kind : KindDef) (entry : Entry) (payload : Attributes) : Entry :=
  { entry with concept := entry.concept.setPayload (kind.merge entry.concept.payload payload) }

namespace Run

variable {settings : Settings} {run : Run} {offer offer' : Offer}

/-- The state with a further description merged into a stored concept, counted as
a repetition. -/
def extend (run : Run) (kind : KindDef) (entry : Entry) (payload : Attributes) : Run :=
  { run with
    store := run.store.setPayload entry.id (kind.merge entry.concept.payload payload)
    changed := run.changed || kind.merge entry.concept.payload payload ≠ entry.concept.payload
    stats := { run.stats with alreadyPresent := run.stats.alreadyPresent + 1 } }

/-- The store may be offered descriptions of the stored concept `entry` of the
declared kind `kind`, under the key of the offer. -/
structure Describes (run : Run) (kind : KindDef) (entry : Entry) (offer : Offer) : Prop where
  wellFormed : run.store.WellFormed
  valid : run.store.schema.validate offer.concept = .ok kind
  resolved : run.store.missingTarget? offer.concept = none
  found : run.store.find? offer.concept.key = some entry

section Describes

variable {kind : KindDef} {entry : Entry}

theorem Describes.exchange (h : run.Describes kind entry offer)
    (hoffer : offer.Exchangeable offer') : run.Describes kind entry offer' where
  wellFormed := h.wellFormed
  valid := Schema.validate_congr _ hoffer.key h.valid
  resolved := (Store.missingTarget?_congr _ hoffer.key).symm.trans h.resolved
  found := hoffer.key ▸ h.found

theorem Describes.extend (h : run.Describes kind entry offer) (payload : Attributes) :
    (run.extend kind entry payload).Describes kind (entry.extend kind payload) offer where
  wellFormed := h.wellFormed.setPayload (h.wellFormed.find?_eq_some_iff.1 h.found).1
    (h.wellFormed.validate_entry h.valid h.found) (KindDef.normal_merge _ _)
  valid := h.valid
  resolved := h.resolved
  found := h.wellFormed.find?_setPayload_self h.found

theorem Describes.get?_entry (h : run.Describes kind entry offer) :
    run.store.get? entry.id = some entry :=
  (h.wellFormed.find?_eq_some_iff.1 h.found).1

variable (settings) in
theorem place_of_conflict (h : run.Describes kind entry offer)
    (hdisagree : kind.disagreement? entry.concept.payload offer.concept.payload ≠ none) :
    ∃ conflict, run.place settings offer = .error (.duplicateKeyConflict conflict) ∧
      conflict.key = offer.concept.key := by
  have hkey : entry.key = offer.concept.key := (h.wellFormed.find?_eq_some_iff.1 h.found).2
  rw [place_eq, Store.insert, h.valid]
  dsimp only
  rw [h.resolved]
  dsimp only
  rw [h.found]
  dsimp only
  unfold Store.reinsert
  cases hname : kind.disagreement? entry.concept.payload offer.concept.payload with
  | none => exact absurd hname hdisagree
  | some name => exact ⟨_, rfl, hkey⟩

theorem place_of_insert {store : Store} {admission : Admission}
    (hinsert : run.store.insert offer.concept offer.origin = .ok (admission, store))
    (hnew : admission.isNew = false) :
    run.place settings offer = .ok (run.record offer store admission) := by
  rw [place_eq, hinsert]
  simp [hnew]

variable (settings) in
/-- An offer that agrees with the stored description is merged into it. -/
theorem place_of_agree (h : run.Describes kind entry offer)
    (hagree : kind.disagreement? entry.concept.payload offer.concept.payload = none) :
    ∃ next, run.place settings offer = .ok next ∧
      Twin next (run.extend kind entry offer.concept.payload) := by
  have hnext := (h.extend offer.concept.payload).wellFormed
  by_cases hsame : kind.merge entry.concept.payload offer.concept.payload = entry.concept.payload
  · have hinsert : run.store.insert offer.concept offer.origin =
        .ok (.alreadyPresent entry.id, run.store) :=
      Store.insert_eq_ok_iff.2 ⟨kind, h.valid, h.resolved, .alreadyPresent h.found hagree hsame⟩
    have hextend : run.extend kind entry offer.concept.payload =
        run.record offer run.store (.alreadyPresent entry.id) := by
      unfold extend
      rw [hsame, Store.setPayload_self h.get?_entry]
      simp [record]
    refine ⟨_, place_of_insert hinsert rfl, ?_⟩
    rw [← hextend]
    exact .refl hnext
  · have hinsert : run.store.insert offer.concept offer.origin =
        .ok (.merged entry.id, run.store.setPayload entry.id
          (kind.merge entry.concept.payload offer.concept.payload)) :=
      Store.insert_eq_ok_iff.2 ⟨kind, h.valid, h.resolved, .merged h.found hagree hsame⟩
    have hchanged : true = (run.extend kind entry offer.concept.payload).changed := by
      simp [extend, hsame]
    have htwin : Twin (run.extend kind entry offer.concept.payload)
        (run.extend kind entry offer.concept.payload) := .refl hnext
    refine ⟨_, place_of_insert hinsert rfl, ?_⟩
    exact { htwin with changed := hchanged, stats := pooled_merges run.stats }

/-- After an offer that agrees with the stored description, a run goes on as if
the description had always been the merged one. -/
theorem place_bind_of_agree (h : run.Describes kind entry offer)
    (hagree : kind.disagreement? entry.concept.payload offer.concept.payload = none) :
    Together (run.place settings offer >>= fun next => next.place settings offer')
      ((run.extend kind entry offer.concept.payload).place settings offer') := by
  obtain ⟨next, hplace, htwin⟩ := place_of_agree settings h hagree
  rw [hplace]
  exact place_together htwin (.refl offer')

theorem changed_extend_extend (run : Run) (p q : Attributes) :
    ((run.extend kind entry p).extend kind (entry.extend kind p) q).changed =
      (run.changed ||
        kind.merge (kind.merge entry.concept.payload p) q ≠ entry.concept.payload) := by
  show (run.changed || decide (kind.merge entry.concept.payload p ≠ _) ||
    decide (kind.merge (kind.merge entry.concept.payload p) q ≠
      kind.merge entry.concept.payload p)) = _
  by_cases hfirst : kind.merge entry.concept.payload p = entry.concept.payload
  · rw [hfirst]
    simp
  · have hboth : kind.merge (kind.merge entry.concept.payload p) q ≠ entry.concept.payload :=
      fun heq => hfirst (KindDef.merge_eq_self_of_merge_merge_eq heq)
    simp [hfirst, hboth]

/-- Two further descriptions of a stored concept may be merged in either order. -/
theorem twin_extend_extend (h : run.Describes kind entry offer) (p q : Attributes) :
    Twin ((run.extend kind entry p).extend kind (entry.extend kind p) q)
      ((run.extend kind entry q).extend kind (entry.extend kind q) p) := by
  have hstore : ∀ p q, ((run.extend kind entry p).extend kind (entry.extend kind p) q).store =
      run.store.setPayload entry.id (kind.merge (kind.merge entry.concept.payload p) q) :=
    fun p q => Store.setPayload_setPayload _ _ _ _
  exact
    { left := ((h.extend p).extend q).wellFormed
      right := ((h.extend q).extend p).wellFormed
      store := by
        rw [hstore, hstore, KindDef.merge_right_comm]
        exact .refl _
      lineage := rfl
      deferred := .refl _
      fresh := rfl
      changed := by
        rw [changed_extend_extend, changed_extend_extend, KindDef.merge_right_comm]
      stats := rfl
      phase := rfl }

theorem place_place_of_agree (h : run.Describes kind entry offer)
    (hoffer : offer.Exchangeable offer')
    (hfirst : kind.disagreement? entry.concept.payload offer.concept.payload = none)
    (hsecond : kind.disagreement? entry.concept.payload offer'.concept.payload = none) :
    Together (run.place settings offer >>= fun next => next.place settings offer')
      (.ok ((run.extend kind entry offer.concept.payload).extend kind
        (entry.extend kind offer.concept.payload) offer'.concept.payload)) := by
  have hnext := (h.extend offer.concept.payload).exchange hoffer
  have hagree := (KindDef.disagreement?_merge_eq_none_iff kind entry.concept.payload
    offer.concept.payload offer'.concept.payload).2 hsecond
  obtain ⟨next, hplace, htwin⟩ := place_of_agree settings hnext hagree
  apply (place_bind_of_agree h hfirst).trans
  rw [hplace]
  exact .ok htwin

variable (settings) in
theorem place_place_of_conflict (h : run.Describes kind entry offer)
    (hoffer : offer.Exchangeable offer')
    (hdisagree : ¬ (kind.disagreement? entry.concept.payload offer.concept.payload = none ∧
      kind.disagreement? entry.concept.payload offer'.concept.payload = none)) :
    ∃ conflict, Together (run.place settings offer >>= fun next => next.place settings offer')
      (.error (.duplicateKeyConflict conflict)) ∧ conflict.key = offer.concept.key := by
  by_cases hfirst : kind.disagreement? entry.concept.payload offer.concept.payload = none
  · have hnext := (h.extend offer.concept.payload).exchange hoffer
    have hsecond := fun hagree => hdisagree ⟨hfirst,
      (KindDef.disagreement?_merge_eq_none_iff kind entry.concept.payload
        offer.concept.payload offer'.concept.payload).1 hagree⟩
    obtain ⟨conflict, hplace, hkey⟩ := place_of_conflict settings hnext hsecond
    refine ⟨conflict, ?_, hkey.trans hoffer.key.symm⟩
    rw [← hplace]
    exact place_bind_of_agree h hfirst
  · obtain ⟨conflict, hplace, hkey⟩ := place_of_conflict settings h hfirst
    refine ⟨conflict, ?_, hkey⟩
    rw [hplace]
    exact .error (.refl _)

/-- Two offers for a stored concept may be placed in either order. -/
theorem place_swap_of_find (h : run.Describes kind entry offer)
    (hoffer : offer.Exchangeable offer') :
    Together (run.place settings offer >>= fun next => next.place settings offer')
      (run.place settings offer' >>= fun next => next.place settings offer) := by
  have h' := h.exchange hoffer
  by_cases hagree : kind.disagreement? entry.concept.payload offer.concept.payload = none ∧
      kind.disagreement? entry.concept.payload offer'.concept.payload = none
  · have htwin := twin_extend_extend h offer.concept.payload offer'.concept.payload
    apply (place_place_of_agree h hoffer hagree.1 hagree.2).trans
    apply Together.trans (.ok htwin)
    exact (place_place_of_agree h' hoffer.symm hagree.2 hagree.1).symm
  · obtain ⟨conflict, hleft, hkey⟩ :=
      place_place_of_conflict settings h hoffer hagree
    obtain ⟨conflict', hright, hkey'⟩ :=
      place_place_of_conflict settings h' hoffer.symm
        fun hboth => hagree ⟨hboth.2, hboth.1⟩
    have hkeys : conflict.key = conflict'.key := hkey.trans (hoffer.key.trans hkey'.symm)
    have halike : (ExpansionError.duplicateKeyConflict conflict).Alike
        (.duplicateKeyConflict conflict') := ⟨rfl, congrArg some hkeys⟩
    exact (hleft.trans (.error halike)).trans hright.symm

/-! ## A key that is new -/

theorem setPayload_congr {a b : Concept} (hkey : a.key = b.key) (payload : Attributes) :
    a.setPayload payload = b.setPayload payload := by
  have hkind : a.kind = b.kind := congrArg Key.kind hkey
  have hfields : a.fields = b.fields := congrArg Key.fields hkey
  unfold Concept.setPayload
  rw [hkind, hfields]

/-- The entry under which a new concept is stored. -/
def entryOf (kind : KindDef) (offer : Offer) (id : ConceptId) : Entry :=
  { id, key := offer.concept.key
    concept := offer.concept.setPayload (kind.normalize offer.concept.payload)
    origin := offer.origin }

/-- The state once a new concept has been stored. -/
def enter (run : Run) (kind : KindDef) (offer : Offer) (id : ConceptId) : Run :=
  run.record offer (run.store.push (entryOf kind offer id)) (.admitted id)

/-- The store may be offered a concept of the declared kind `kind` under the key
of the offer, which is new and would be stored as `id`. -/
structure Lacks (run : Run) (kind : KindDef) (id : ConceptId) (offer : Offer) : Prop where
  wellFormed : run.store.WellFormed
  valid : run.store.schema.validate offer.concept = .ok kind
  resolved : run.store.missingTarget? offer.concept = none
  new : run.store.find? offer.concept.key = none
  id : ConceptId.ofIndex? run.store.size = some id

variable {id : ConceptId}

theorem Lacks.exchange (h : run.Lacks kind id offer) (hoffer : offer.Exchangeable offer') :
    run.Lacks kind id offer' where
  wellFormed := h.wellFormed
  valid := Schema.validate_congr _ hoffer.key h.valid
  resolved := (Store.missingTarget?_congr _ hoffer.key).symm.trans h.resolved
  new := hoffer.key ▸ h.new
  id := h.id

theorem Lacks.insert (h : run.Lacks kind id offer) :
    run.store.insert offer.concept offer.origin =
      .ok (.admitted id, run.store.push (entryOf kind offer id)) :=
  Store.insert_eq_ok_iff.2 ⟨kind, h.valid, h.resolved, .admitted h.id h.new⟩

/-- What has been stored may be described once more. -/
theorem Lacks.describes (h : run.Lacks kind id offer) :
    (run.enter kind offer id).Describes kind (entryOf kind offer id) offer where
  wellFormed := h.wellFormed.insert h.insert
  valid := h.valid
  resolved := (h.wellFormed.grows_insert h.insert).missingTarget? h.resolved
  found := Store.find?_push_self (Store.index_of_ofIndex? h.id)

theorem place_of_lacks (h : run.Lacks kind id offer) :
    run.place settings offer =
      if settings.maxDepth < offer.depth then
        .error (.nonTerminating (.depth settings.maxDepth) ((run.enter kind offer id).chain id))
      else .ok (run.enter kind offer id) := by
  rw [place_eq, h.insert]
  simp only [Admission.isNew, true_and]
  rfl

theorem twin_enter_extend (h : run.Lacks kind id offer) (hoffer : offer.Exchangeable offer')
    (hagree : ∀ name, kind.isCumulative name = false →
      offer.concept.payload.get? name = offer'.concept.payload.get? name) :
    Twin
      ((run.enter kind offer id).extend kind (entryOf kind offer id) offer'.concept.payload)
      ((run.enter kind offer' id).extend kind (entryOf kind offer' id) offer.concept.payload) := by
  have h' := h.exchange hoffer
  have hindex := Store.index_of_ofIndex? h.id
  have hpayload : kind.merge (kind.normalize offer.concept.payload) offer'.concept.payload =
      kind.merge (kind.normalize offer'.concept.payload) offer.concept.payload :=
    KindDef.merge_normalize_comm hagree
  have hconcept : offer.concept.setPayload
      (kind.merge (kind.normalize offer.concept.payload) offer'.concept.payload) =
        offer'.concept.setPayload
          (kind.merge (kind.normalize offer'.concept.payload) offer.concept.payload) := by
    rw [hpayload, setPayload_congr hoffer.key]
  exact
    { left := (h.describes.extend _).wellFormed
      right := (h'.describes.extend _).wellFormed
      store := by
        show Store.Alike ((run.store.push (entryOf kind offer id)).setPayload _ _)
          ((run.store.push (entryOf kind offer' id)).setPayload _ _)
        rw [Store.setPayload_push _ hindex, Store.setPayload_push _ hindex]
        exact Store.Alike.push (.refl _) ⟨rfl, hoffer.key, hconcept, hoffer.origin⟩
      lineage := by
        show run.lineage.push _ = run.lineage.push _
        rw [hoffer.parent, hoffer.depth]
      deferred := .refl _
      fresh := rfl
      changed := rfl
      stats := by
        show Stats.pooled { run.stats with
          maxDepthReached := max run.stats.maxDepthReached offer.depth
          alreadyPresent := run.stats.alreadyPresent + 1 } = _
        rw [hoffer.depth]
        rfl
      phase := rfl }

/-- Two offers for a key that is new may be placed in either order. -/
theorem place_swap_of_lacks (h : run.Lacks kind id offer) (hoffer : offer.Exchangeable offer') :
    Together (run.place settings offer >>= fun next => next.place settings offer')
      (run.place settings offer' >>= fun next => next.place settings offer) := by
  have h' := h.exchange hoffer
  rw [place_of_lacks h, place_of_lacks h', hoffer.depth]
  by_cases hdepth : settings.maxDepth < offer'.depth
  · rw [if_pos hdepth, if_pos hdepth]
    have hleft : (run.enter kind offer id).store.get? id = some (entryOf kind offer id) :=
      h.describes.get?_entry
    have hright : (run.enter kind offer' id).store.get? id = some (entryOf kind offer' id) :=
      h'.describes.get?_entry
    refine .error ⟨rfl, ?_⟩
    show List.getLast? _ = List.getLast? _
    rw [getLast?_chain, getLast?_chain, hleft, hright]
    exact congrArg some hoffer.key
  · rw [if_neg hdepth, if_neg hdepth]
    show Together ((run.enter kind offer id).place settings offer')
      ((run.enter kind offer' id).place settings offer)
    have hleft := h.describes.exchange hoffer
    have hright := h'.describes.exchange hoffer.symm
    have hagrees := (KindDef.disagreement?_normalize_eq_none_iff kind offer.concept.payload
      offer'.concept.payload).trans (KindDef.disagreement?_eq_none_iff kind _ _)
    have hagrees' := (KindDef.disagreement?_normalize_eq_none_iff kind offer'.concept.payload
      offer.concept.payload).trans (KindDef.disagreement?_eq_none_iff kind _ _)
    by_cases hagree : ∀ name, kind.isCumulative name = false →
        offer.concept.payload.get? name = offer'.concept.payload.get? name
    · obtain ⟨next, hnext, htwin⟩ := place_of_agree settings hleft (hagrees.2 hagree)
      obtain ⟨next', hnext', htwin'⟩ := place_of_agree settings hright
        (hagrees'.2 fun name hname => (hagree name hname).symm)
      rw [hnext, hnext']
      exact .ok ((htwin.trans (twin_enter_extend h hoffer hagree)).trans htwin'.symm)
    · obtain ⟨conflict, hconflict, hkey⟩ := place_of_conflict settings hleft
        (mt hagrees.1 hagree)
      obtain ⟨conflict', hconflict', hkey'⟩ := place_of_conflict settings hright
        fun hnone => hagree fun name hname => (hagrees'.1 hnone name hname).symm
      rw [hconflict, hconflict']
      exact .error ⟨rfl, congrArg some (hkey.trans (hoffer.key.symm.trans hkey'.symm))⟩

end Describes

/-! ## Any key -/

theorem validate_error_congr {schema : Schema} {a b : Concept} {cause : SchemaError}
    (hkey : a.key = b.key) (h : schema.validate a = .error cause) :
    ∃ cause', schema.validate b = .error cause' := by
  cases hvalid : schema.validate b with
  | error cause' => exact ⟨cause', rfl⟩
  | ok kind =>
      rw [Schema.validate_congr schema hkey.symm hvalid] at h
      cases h

theorem place_of_invalid {cause : SchemaError}
    (h : run.store.schema.validate offer.concept = .error cause) :
    run.place settings offer = .error (.refused (.invalid cause)) := by
  rw [place_eq, Store.insert, h]
  rfl

theorem place_of_full {kind : KindDef} (hvalid : run.store.schema.validate offer.concept = .ok kind)
    (hmissing : run.store.missingTarget? offer.concept = none)
    (hnew : run.store.find? offer.concept.key = none)
    (hfull : ConceptId.ofIndex? run.store.size = none) :
    run.place settings offer =
      .error (.capacityExceeded offer.concept.key Store.capacity) := by
  rw [place_eq, Store.insert, hvalid]
  dsimp only
  rw [hmissing]
  dsimp only
  rw [hnew]
  dsimp only
  rw [Store.insertNew, hfull]
  rfl

/-- Two offers of one key may be placed in either order. -/
theorem place_swap (hrun : run.store.WellFormed) (hoffer : offer.Exchangeable offer')
    (hmissing : run.store.missingTarget? offer.concept = none) :
    Together (run.place settings offer >>= fun next => next.place settings offer')
      (run.place settings offer' >>= fun next => next.place settings offer) := by
  have hmissing' := (Store.missingTarget?_congr run.store hoffer.key).symm.trans hmissing
  cases hvalid : run.store.schema.validate offer.concept with
  | error cause =>
      obtain ⟨cause', hvalid'⟩ := validate_error_congr hoffer.key hvalid
      rw [place_of_invalid hvalid, place_of_invalid hvalid']
      exact .error ⟨rfl, rfl⟩
  | ok kind =>
      have hvalid' := Schema.validate_congr _ hoffer.key hvalid
      cases hfind : run.store.find? offer.concept.key with
      | some entry => exact place_swap_of_find ⟨hrun, hvalid, hmissing, hfind⟩ hoffer
      | none =>
          have hfind' : run.store.find? offer'.concept.key = none := hoffer.key ▸ hfind
          cases hid : ConceptId.ofIndex? run.store.size with
          | some id => exact place_swap_of_lacks ⟨hrun, hvalid, hmissing, hfind, hid⟩ hoffer
          | none =>
              rw [place_of_full hvalid hmissing hfind hid,
                place_of_full hvalid' hmissing' hfind' hid]
              exact .error ⟨rfl, congrArg some hoffer.key⟩

/-- Defers an offer whose key references are not all resolvable, counting it in
some way, and places any other. -/
def take (settings : Settings) (count : Stats → Stats) (run : Run) (offer : Offer) :
    Except ExpansionError Run :=
  match run.store.missingTarget? offer.concept with
  | some _ => .ok { run with deferred := run.deferred ++ [offer], stats := count run.stats }
  | none => run.place settings offer

/-- The statistics with one more deferral. -/
def countDeferral (stats : Stats) : Stats :=
  { stats with deferrals := stats.deferrals + 1 }

theorem receive_of_valid {kind : KindDef}
    (h : run.store.schema.validate offer.concept = .ok kind) :
    run.receive settings offer =
      run.take settings countDeferral offer := by
  unfold receive
  rw [h]
  rfl

theorem schema_of_take {count : Stats → Stats} {next : Run} (hrun : run.store.WellFormed)
    (h : run.take settings count offer = .ok next) :
    next.store.schema = run.store.schema := by
  unfold take at h
  split at h
  · cases h
    rfl
  · exact (carries_of_place hrun h).1.grows.schema

/-- Two offers of one key may be taken in in either order. -/
theorem take_swap (count : Stats → Stats) (hrun : run.store.WellFormed)
    (hoffer : offer.Exchangeable offer') :
    Together (run.take settings count offer >>= fun next => next.take settings count offer')
      (run.take settings count offer' >>= fun next => next.take settings count offer) := by
  have hmissing := Store.missingTarget?_congr run.store hoffer.key
  cases htarget : run.store.missingTarget? offer.concept with
  | some target =>
      have htarget' := hmissing.symm.trans htarget
      have htake : ∀ {first second : Offer}, run.store.missingTarget? first.concept = some target →
          run.store.missingTarget? second.concept = some target →
          (run.take settings count first >>= fun next => next.take settings count second) =
            .ok { run with
              deferred := run.deferred ++ [first] ++ [second]
              stats := count (count run.stats) } := by
        intro first second hfirst hsecond
        unfold take
        rw [hfirst]
        show (match run.store.missingTarget? second.concept with | some _ => _ | none => _) = _
        rw [hsecond]
      rw [htake htarget htarget', htake htarget' htarget, List.append_assoc, List.append_assoc]
      exact .ok (twin_defer (.refl hrun) (.swap hoffer []) rfl)
  | none =>
      have htarget' := hmissing.symm.trans htarget
      have htake : ∀ {first second : Offer}, run.store.missingTarget? first.concept = none →
          run.store.missingTarget? second.concept = none →
          (run.take settings count first >>= fun next => next.take settings count second) =
            (run.place settings first >>= fun next => next.place settings second) := by
        intro first second hfirst hsecond
        rw [show run.take settings count first = run.place settings first by
          rw [take, hfirst]]
        apply Agree.bind_congr_ok
        intro next hnext
        rw [take, (carries_of_place hrun hnext).1.grows.missingTarget? hsecond]
      rw [htake htarget htarget', htake htarget' htarget]
      exact place_swap hrun hoffer htarget

theorem reconsider_swap (hrun : run.store.WellFormed) (hoffer : offer.Exchangeable offer') :
    Together
      (run.reconsider settings offer >>= fun next => next.reconsider settings offer')
      (run.reconsider settings offer' >>= fun next => next.reconsider settings offer) :=
  take_swap id hrun hoffer

theorem receive_swap (hrun : run.store.WellFormed) (hoffer : offer.Exchangeable offer') :
    Together (run.receive settings offer >>= fun next => next.receive settings offer')
      (run.receive settings offer' >>= fun next => next.receive settings offer) := by
  have hreceive : ∀ {first second : Offer} {kind : KindDef},
      run.store.schema.validate first.concept = .ok kind →
      run.store.schema.validate second.concept = .ok kind →
      (run.receive settings first >>= fun next => next.receive settings second) =
        (run.take settings countDeferral first >>= fun next =>
          next.take settings countDeferral second) := by
    intro first second kind hfirst hsecond
    rw [receive_of_valid hfirst]
    apply Agree.bind_congr_ok
    intro next hnext
    exact receive_of_valid (schema_of_take hrun hnext ▸ hsecond)
  cases hvalid : run.store.schema.validate offer.concept with
  | error cause =>
      obtain ⟨cause', hvalid'⟩ := validate_error_congr hoffer.key hvalid
      unfold receive
      rw [hvalid, hvalid']
      exact .error (rejection_alike hoffer _ _)
  | ok kind =>
      have hvalid' := Schema.validate_congr _ hoffer.key hvalid
      rw [hreceive hvalid hvalid', hreceive hvalid' hvalid]
      exact take_swap _ hrun hoffer

end Run

end ConceptExpansion
