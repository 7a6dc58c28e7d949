/-
# Which references are given up

A concept may come before one that it refers to. That is so on a cycle of payload
references, where some reference has to be given up, but not only there. When nothing is
ready because of a cycle, the concept that is placed next is chosen among all concepts
that are left, not among those on the cycle. A concept from which the cycle can be
reached may have a smaller key than any on it, and then its own reference is given up,
though it does not lead back to the concept and giving it up does not break the cycle.

`GivesUp` says how far this goes. Only payload references are given up, only when each
concept that is left waits for another one that is left, and only those of the least key
that could be placed otherwise; and from the target of the reference a cycle of concepts
that are left can be reached. So references are respected wherever no cycle is ahead.
-/

import ConceptExpansion.Proofs.Store.DependenciesFirst

namespace ConceptExpansion

namespace Store

variable {store : Store} {a b c : ConceptId}

/-- The reference of `a` to `b` is given up: `a` is placed first, when it has its turn
because nothing is ready. -/
structure GivesUp (store : Store) (a b : ConceptId) : Prop where
  payload : ¬ store.KeyRefersTo a b
  turn : ∃ before after, store.precedence = before ++ a :: after ∧ b ∈ after ∧
    store.Blocked before ∧ store.KeysPlaced before a ∧ store.LeastPlaceable before a ∧
    ∃ c, Relation.ReflTransGen (store.WaitsFor before) b c ∧
      Relation.TransGen (store.WaitsFor before) c c

/-- By following dependencies from the concept a cycle of them can be reached. -/
def LeadsToCycle (store : Store) (id : ConceptId) : Prop :=
  ∃ c, Relation.ReflTransGen store.DependsOn id c ∧ Relation.TransGen store.DependsOn c c

theorem GivesUp.leadsToCycle (h : store.GivesUp a b) : store.LeadsToCycle b := by
  obtain ⟨before, after, -, -, -, -, -, c, hleads, hcycle⟩ := h.turn
  have hdepends : ∀ a b, store.WaitsFor before a b → store.DependsOn a b := fun _ _ => And.left
  exact ⟨c, Relation.ReflTransGen.mono hdepends _ _ hleads,
    Relation.TransGen.mono hdepends _ _ hcycle⟩

/-- A dependency comes first unless it is given up. -/
theorem WellFormed.precedes_or_givesUp (hstore : store.WellFormed) (h : store.DependsOn a b) :
    store.Precedes b a ∨ store.GivesUp a b := by
  obtain ⟨ha, hb⟩ := h.mem_ids hstore
  obtain ⟨before, after, hsplit, hturn⟩ := hstore.exists_turn ha
  by_cases hbefore : b ∈ before
  · exact .inl ⟨before, after, hsplit, hbefore⟩
  · right
    have hlisted : b ∈ before ++ a :: after := hsplit ▸ hstore.precedence_perm.mem_iff.2 hb
    have hafter : b ∈ after := by
      rcases List.mem_cons.1 ((List.mem_append.1 hlisted).resolve_left hbefore) with rfl | hafter
      · exact absurd rfl (dependsOn_iff.1 h).1
      · exact hafter
    cases hturn with
    | ready hdependencies => exact absurd (hdependencies b h) hbefore
    | forced hblocked hkeys hleast =>
        exact ⟨fun hkey => hbefore (hkeys b hkey), before, after, hsplit, hafter, hblocked, hkeys,
          hleast, hblocked.exists_cycle hstore hb hbefore⟩

/-- What is given up does not come first. -/
theorem WellFormed.not_precedes_of_givesUp (hstore : store.WellFormed) (h : store.GivesUp a b) :
    ¬ store.Precedes b a := by
  rintro ⟨before', after', hsplit', hbefore⟩
  obtain ⟨before, after, hsplit, hafter, -⟩ := h.turn
  have hnodup := hstore.nodup_precedence
  rw [hsplit, List.nodup_append'] at hnodup
  have hnew : a ∉ after := (List.nodup_cons.1 hnodup.2.1).1
  obtain ⟨rfl, -, -⟩ := (List.append_cons_inj_of_notMem (hstore.not_mem_before hsplit) hnew).1
    (hsplit.symm.trans hsplit')
  exact hnodup.2.2 hbefore (List.mem_cons_of_mem _ hafter)

/-- Of two different concepts the one that the other refers to comes first, unless the
reference is given up. That happens only to a reference in the payload, when each concept
that is left depends on another one that is left, to the least key of those whose key
references have been placed, and only if a cycle of concepts that are left can be reached
from the target. In particular the target comes first if no cycle can be reached from it,
whatever cycles there are elsewhere. -/
theorem Reachable.precedes_unless_givesUp (h : store.Reachable) (hne : a ≠ b)
    (href : store.RefersTo a b) :
    (¬ store.Precedes b a ↔ store.GivesUp a b) ∧
    (¬ store.LeadsToCycle b → store.Precedes b a) := by
  have hstore := h.wellFormed
  have hcases := hstore.precedes_or_givesUp (href.dependsOn hne)
  refine ⟨⟨hcases.resolve_left, hstore.not_precedes_of_givesUp⟩, fun hnone => ?_⟩
  exact hcases.resolve_right fun hgives => hnone hgives.leadsToCycle

end Store

/-! ## A detour -/

namespace Detour

/-- Places. -/
def schema : Schema :=
  .ofKinds [{ name := "P", keyFields := ["n"] }]

/-- A place, by number, with signs to others. -/
def place (n : Int64) (signs : List Int64) : Concept where
  kind := "P"
  fields := [.int n]
  payload := .ofList [("signs", .list (signs.map fun m => .ref "P" [.int m]))]

/-- The second and the third place point at each other; the first points at both, and
the fourth at the fifth. -/
def signposts : Store :=
  ((Store.empty schema).insertAll
    [(place 1 [2, 3], .seed 0), (place 2 [3], .seed 1), (place 3 [2], .seed 2),
      (place 4 [5], .seed 3), (place 5 [], .seed 4)]).2

theorem signposts_reachable : signposts.Reachable :=
  (Store.Reachable.empty schema).insertAll _

/-- The identifier of the place with this number. -/
def placeId (n : Nat) (h : n - 1 < Store.capacity := by decide) : ConceptId :=
  ⟨n - 1, h⟩

theorem signposts_precedence :
    signposts.precedence = [placeId 5, placeId 4, placeId 1, placeId 2, placeId 3] := by
  cbv

theorem dependencies_of_signposts : signposts.dependencies (placeId 1) = [placeId 2, placeId 3] ∧
    signposts.dependencies (placeId 2) = [placeId 3] ∧
    signposts.dependencies (placeId 3) = [placeId 2] ∧
    signposts.dependencies (placeId 4) = [placeId 5] ∧
    signposts.dependencies (placeId 5) = [] := by
  refine ⟨?_, ?_, ?_, ?_, ?_⟩ <;> cbv

theorem first_place_refers : signposts.RefersTo (placeId 1) (placeId 2) := by
  have hdepends : signposts.DependsOn (placeId 1) (placeId 2) := by
    rw [Store.DependsOn, dependencies_of_signposts.1]
    exact List.mem_cons_self
  exact (Store.dependsOn_iff.1 hdepends).2

theorem first_place_first : ¬ signposts.Precedes (placeId 2) (placeId 1) := by
  rintro ⟨before, after, hsplit, hbefore⟩
  have hsplit' : [placeId 5, placeId 4] ++ placeId 1 :: [placeId 2, placeId 3] =
      before ++ placeId 1 :: after := signposts_precedence.symm.trans hsplit
  obtain ⟨rfl, -, -⟩ :=
    (List.append_cons_inj_of_notMem (by decide) (by decide)).1 hsplit'
  exact absurd hbefore (by decide)

/-- The second and the third place lead to each other only. -/
theorem second_place_leads {id : ConceptId}
    (h : Relation.ReflTransGen signposts.RefersTo (placeId 2) id) :
    id = placeId 2 ∨ id = placeId 3 := by
  obtain ⟨-, hsecond, hthird, -⟩ := dependencies_of_signposts
  induction h with
  | refl => exact .inl rfl
  | @tail current next _ hstep ih =>
      by_cases hsame : current = next
      · exact hsame ▸ ih
      · have hdepends := hstep.dependsOn hsame
        unfold Store.DependsOn at hdepends
        rcases ih with rfl | rfl
        · rw [hsecond] at hdepends
          exact .inr (List.mem_singleton.1 hdepends)
        · rw [hthird] at hdepends
          exact .inl (List.mem_singleton.1 hdepends)

/-- The first place comes before the second, to which it has a sign, though nothing
leads back from there: it has the least key when the second and the third wait for each
other. -/
theorem reference_given_up_off_cycle : signposts.Reachable ∧ placeId 1 ≠ placeId 2 ∧
    signposts.RefersTo (placeId 1) (placeId 2) ∧
    ¬ Relation.ReflTransGen signposts.RefersTo (placeId 2) (placeId 1) ∧
    ¬ signposts.Precedes (placeId 2) (placeId 1) := by
  refine ⟨signposts_reachable, by decide, first_place_refers, fun hback => ?_,
    first_place_first⟩
  rcases second_place_leads hback with heq | heq
  · exact absurd heq (by decide)
  · exact absurd heq (by decide)

/-- The fifth place comes before the fourth, since no cycle is ahead of it, and only the
sign of the first place is given up. -/
theorem signposts_in_order : signposts.GivesUp (placeId 1) (placeId 2) ∧
    signposts.Precedes (placeId 5) (placeId 4) := by
  obtain ⟨-, -, -, hfourth, hfifth⟩ := dependencies_of_signposts
  have hdepends : signposts.DependsOn (placeId 4) (placeId 5) := by
    rw [Store.DependsOn, hfourth]
    exact List.mem_cons_self
  have hends : ∀ id, ¬ signposts.DependsOn (placeId 5) id := by
    intro id h
    rw [Store.DependsOn, hfifth] at h
    cases h
  refine ⟨(signposts_reachable.precedes_unless_givesUp (by decide) first_place_refers).1.1
    first_place_first, ?_⟩
  obtain ⟨hne, hrefers⟩ := Store.dependsOn_iff.1 hdepends
  refine (signposts_reachable.precedes_unless_givesUp hne hrefers).2 ?_
  rintro ⟨c, hleads, hcycle⟩
  rcases hleads.cases_head with rfl | ⟨next, hstep, -⟩
  · obtain ⟨next, hstep, -⟩ := Relation.TransGen.head'_iff.1 hcycle
    exact hends next hstep
  · exact hends next hstep

end Detour

end ConceptExpansion
