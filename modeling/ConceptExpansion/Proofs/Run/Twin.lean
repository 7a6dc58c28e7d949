/-
# Twin runs

Two runs are twins if they differ at most in the positions of seeds, in the
order in which offers with one key wait, and in how admissions that added no
concept are told apart: as merges or as repetitions. Twins stay twins when they
take in the same offer. They also become twins when one run takes in two offers
of one key in either order, because repeated descriptions add up in any order.
So twins that take in reordered offers agree: both fail, for alike reasons, or
both become twins again.
-/

import ConceptExpansion.Proofs.Run.Intake
import ConceptExpansion.Proofs.Store.Positions

namespace ConceptExpansion

/-! ## Reordered offers -/

/-- The statistics without the distinction between merges and repetitions. -/
def Stats.pooled (stats : Stats) : Stats :=
  { stats with merges := 0, alreadyPresent := stats.merges + stats.alreadyPresent }

namespace Offer

/-- The offers are the same up to the position of a seed. -/
structure Alike (a b : Offer) : Prop where
  concept : a.concept = b.concept
  origin : a.origin.forgetPosition = b.origin.forgetPosition
  parent : a.parent = b.parent
  depth : a.depth = b.depth

/-- The offers describe one key and differ in nothing else but their payloads and
the position of a seed. -/
structure Exchangeable (a b : Offer) : Prop where
  key : a.concept.key = b.concept.key
  origin : a.origin.forgetPosition = b.origin.forgetPosition
  parent : a.parent = b.parent
  depth : a.depth = b.depth

/-- The lists differ in the positions of seeds and in the order of exchangeable
offers. -/
inductive Reordered : List Offer → List Offer → Prop
  | nil : Reordered [] []
  | cons {a b : Offer} {l l' : List Offer} (hfirst : a.Alike b) (hrest : Reordered l l') :
      Reordered (a :: l) (b :: l')
  | swap {a b : Offer} (h : a.Exchangeable b) (l : List Offer) :
      Reordered (a :: b :: l) (b :: a :: l)
  | trans {l l' l'' : List Offer} (h : Reordered l l') (h' : Reordered l' l'') : Reordered l l''

theorem Alike.refl (a : Offer) : a.Alike a := ⟨rfl, rfl, rfl, rfl⟩

theorem Alike.symm {a b : Offer} (h : a.Alike b) : b.Alike a :=
  ⟨h.concept.symm, h.origin.symm, h.parent.symm, h.depth.symm⟩

theorem Exchangeable.symm {a b : Offer} (h : a.Exchangeable b) : b.Exchangeable a :=
  ⟨h.key.symm, h.origin.symm, h.parent.symm, h.depth.symm⟩

namespace Reordered

variable {l l' : List Offer}

theorem refl (l : List Offer) : Reordered l l := by
  induction l with
  | nil => exact .nil
  | cons a l ih => exact .cons (.refl a) ih

theorem symm (h : Reordered l l') : Reordered l' l := by
  induction h with
  | nil => exact .nil
  | cons hfirst _ ih => exact .cons hfirst.symm ih
  | swap h l => exact .swap h.symm l
  | trans _ _ ih ih' => exact .trans ih' ih

theorem append_right (h : Reordered l l') (m : List Offer) : Reordered (l ++ m) (l' ++ m) := by
  induction h with
  | nil => exact .refl m
  | cons hfirst _ ih => exact .cons hfirst ih
  | swap h l => exact .swap h (l ++ m)
  | trans _ _ ih ih' => exact .trans ih ih'

theorem append_left (m : List Offer) (h : Reordered l l') : Reordered (m ++ l) (m ++ l') := by
  induction m with
  | nil => exact h
  | cons a m ih => exact .cons (.refl a) ih

/-- The keys are the same, in another order. -/
theorem keys_perm (h : Reordered l l') :
    (l.map (·.concept.key)).Perm (l'.map (·.concept.key)) := by
  induction h with
  | nil => exact .nil
  | cons hfirst _ ih =>
      rw [List.map_cons, List.map_cons, hfirst.concept]
      exact ih.cons _
  | swap => exact .swap _ _ _
  | trans _ _ ih ih' => exact ih.trans ih'

theorem length_eq (h : Reordered l l') : l.length = l'.length := by
  have hlength := h.keys_perm.length_eq
  rwa [List.length_map, List.length_map] at hlength

end Reordered

end Offer

namespace Run

variable {settings : Settings} {a b c run : Run} {offer offer' : Offer}

/-- The runs differ in nothing but the positions of seeds, the order of
exchangeable deferred offers and the distinction between merges and
repetitions. -/
structure Twin (a b : Run) : Prop where
  left : a.store.WellFormed
  right : b.store.WellFormed
  store : a.store.Alike b.store
  lineage : a.lineage = b.lineage
  deferred : Offer.Reordered a.deferred b.deferred
  fresh : a.fresh = b.fresh
  changed : a.changed = b.changed
  stats : a.stats.pooled = b.stats.pooled
  phase : a.phase = b.phase

namespace Twin

theorem refl (hrun : run.store.WellFormed) : Twin run run :=
  ⟨hrun, hrun, .refl _, rfl, .refl _, rfl, rfl, rfl, rfl⟩

theorem symm (h : Twin a b) : Twin b a :=
  ⟨h.right, h.left, Eq.symm h.store, h.lineage.symm, h.deferred.symm, h.fresh.symm,
    h.changed.symm, h.stats.symm, h.phase.symm⟩

theorem trans (h : Twin a b) (h' : Twin b c) : Twin a c :=
  ⟨h.left, h'.right, Eq.trans h.store h'.store, h.lineage.trans h'.lineage,
    h.deferred.trans h'.deferred, h.fresh.trans h'.fresh, h.changed.trans h'.changed,
    h.stats.trans h'.stats, h.phase.trans h'.phase⟩

end Twin

/-- The attempts end in twins, or in errors that are alike. -/
abbrev Together : Except ExpansionError Run → Except ExpansionError Run → Prop :=
  Agree ExpansionError.Alike Twin

theorem Together.symm {x y : Except ExpansionError Run} (h : Together x y) : Together y x :=
  Agree.symm ExpansionError.Alike.symm Twin.symm h

theorem Together.trans {x y z : Except ExpansionError Run} (hxy : Together x y)
    (hyz : Together y z) : Together x z :=
  Agree.trans ExpansionError.Alike.trans Twin.trans hxy hyz

/-! ## The same offer -/

/-- A derivation chain ends at the concept that it is asked for. -/
theorem getLast?_chain (run : Run) (id : ConceptId) :
    (run.chain id).getLast? = (run.store.get? id).map (·.key) := by
  unfold chain
  rw [List.getLast?_reverse]
  cases hget : run.store.get? id with
  | none =>
      cases run.store.size with
      | zero => rfl
      | succ size => simp [ancestry, hget]
  | some entry =>
      have hpos : 0 < run.store.size := Nat.lt_of_le_of_lt (Nat.zero_le _)
        (Array.getElem?_eq_some_iff.1 hget).1
      obtain ⟨size, hsize⟩ := Nat.exists_eq_add_of_lt hpos
      rw [hsize]
      simp [ancestry, hget]

theorem Twin.chain (h : Twin a b) (id : ConceptId) :
    (a.chain id).getLast? = (b.chain id).getLast? := by
  rw [getLast?_chain, getLast?_chain]
  obtain ⟨ha, hb⟩ | ⟨e, e', ha, hb, he⟩ := h.store.get? id
  · rw [ha, hb]
  · rw [ha, hb, Option.map_some, Option.map_some, he.key]

theorem pooled_merges (stats : Stats) :
    ({ stats with merges := stats.merges + 1 } : Stats).pooled =
      { stats with alreadyPresent := stats.alreadyPresent + 1 }.pooled := by
  simp only [Stats.pooled]
  congr 1
  omega

theorem twin_record (h : Twin a b) (hoffer : offer.Alike offer') (admission : Admission)
    {store store' : Store} (hstore : store.Alike store') (hleft : store.WellFormed)
    (hright : store'.WellFormed) :
    Twin (a.record offer store admission) (b.record offer' store' admission) := by
  have hadmitted := congrArg (fun stats : Stats =>
    { stats with maxDepthReached := max stats.maxDepthReached offer'.depth }) h.stats
  have hpresent := congrArg (fun stats : Stats =>
    { stats with alreadyPresent := stats.alreadyPresent + 1 }) h.stats
  cases admission with
  | admitted id =>
      have hlineage : a.lineage.push { parent := offer.parent, depth := offer.depth } =
          b.lineage.push { parent := offer'.parent, depth := offer'.depth } := by
        rw [h.lineage, hoffer.parent, hoffer.depth]
      have hfresh : a.fresh.push id = b.fresh.push id := by rw [h.fresh]
      have hstats :
          Stats.pooled { a.stats with
            maxDepthReached := max a.stats.maxDepthReached offer.depth } =
          Stats.pooled { b.stats with
            maxDepthReached := max b.stats.maxDepthReached offer'.depth } := by
        rw [hoffer.depth]
        exact hadmitted
      exact { h with
        left := hleft, right := hright, store := hstore, lineage := hlineage, fresh := hfresh
        changed := rfl, stats := hstats }
  | alreadyPresent id =>
      exact { h with left := hleft, right := hright, store := hstore, stats := hpresent }
  | merged id =>
      have hstats := (pooled_merges a.stats).trans (hpresent.trans (pooled_merges b.stats).symm)
      exact { h with
        left := hleft, right := hright, store := hstore, changed := rfl, stats := hstats }

theorem place_together (h : Twin a b) (hoffer : offer.Alike offer') :
    Together (a.place settings offer) (b.place settings offer') := by
  rw [place_eq, place_eq, hoffer.concept, hoffer.depth]
  obtain ⟨⟨admission, store⟩, ⟨_, store'⟩, hleft, hright, rfl, hstore⟩ |
    ⟨e, e', hleft, hright, halike⟩ :=
      (h.store.insert offer'.concept hoffer.origin).ok_or_error
  · have hnext := twin_record h hoffer admission hstore (h.left.insert hleft)
      (h.right.insert hright)
    rw [hleft, hright]
    dsimp only
    split
    · exact .error ⟨rfl, hnext.chain admission.id⟩
    · exact .ok hnext
  · rw [hleft, hright]
    exact .error halike

/-- Offers of one key that do not fit the schema are refused alike. -/
theorem rejection_alike (h : offer.Exchangeable offer') (cause cause' : SchemaError) :
    (offer.rejection cause).Alike (offer'.rejection cause') := by
  have horigin := h.origin
  unfold Offer.rejection
  cases hleft : offer.origin <;> cases hright : offer'.origin <;>
    simp only [hleft, hright, Origin.forgetPosition, Origin.rule.injEq, reduceCtorEq] at horigin
  · exact ⟨rfl, congrArg some h.key⟩
  · exact ⟨rfl, congrArg some horigin.2⟩

theorem twin_defer (h : Twin a b) {l l' : List Offer} (hoffers : Offer.Reordered l l')
    {stats stats' : Stats} (hstats : stats.pooled = stats'.pooled) :
    Twin { a with deferred := a.deferred ++ l, stats := stats }
      { b with deferred := b.deferred ++ l', stats := stats' } :=
  { h with
    deferred := (h.deferred.append_right l).trans (hoffers.append_left b.deferred)
    stats := hstats }

theorem receive_together (h : Twin a b) (hoffer : offer.Alike offer') :
    Together (a.receive settings offer) (b.receive settings offer') := by
  unfold receive
  rw [h.store.schema, hoffer.concept, h.store.missingTarget?]
  cases b.store.schema.validate offer'.concept with
  | error cause =>
      have hkey : offer.concept.key = offer'.concept.key := congrArg Concept.key hoffer.concept
      exact .error (rejection_alike ⟨hkey, hoffer.origin, hoffer.parent, hoffer.depth⟩ _ _)
  | ok kind =>
      dsimp only
      cases b.store.missingTarget? offer'.concept with
      | some target =>
          have hstats := congrArg (fun stats : Stats =>
            { stats with deferrals := stats.deferrals + 1 }) h.stats
          exact .ok (twin_defer h (.cons hoffer .nil) hstats)
      | none => exact place_together h hoffer

theorem reconsider_together (h : Twin a b) (hoffer : offer.Alike offer') :
    Together (a.reconsider settings offer) (b.reconsider settings offer') := by
  unfold reconsider
  rw [hoffer.concept, h.store.missingTarget?]
  cases b.store.missingTarget? offer'.concept with
  | some target => exact .ok (twin_defer h (.cons hoffer .nil) h.stats)
  | none => exact place_together h hoffer

end Run

end ConceptExpansion
