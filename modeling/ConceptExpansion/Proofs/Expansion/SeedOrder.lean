/-
# The order of the seeds does not matter

Seeds are offered by ascending key, so lists with the same seeds in another order
lead to the same offers, but for the order among seeds with one key and for the
positions in their origins. Runs that begin so are twins and stay in lockstep.
Hence an expansion yields the same model for every order of the seeds, or fails
in the same way, unless a rule looks at the positions.
-/

import ConceptExpansion.Proofs.Run.Lockstep

namespace ConceptExpansion

/-! ## Keys in order -/

namespace Key

/-- Sorting forgets the order that keys were in. -/
theorem mergeSort_eq_of_perm {l l' : List Key} (h : l.Perm l') :
    l.mergeSort atMost = l'.mergeSort atMost := by
  have hperm : (l.mergeSort atMost).Perm (l'.mergeSort atMost) :=
    ((List.mergeSort_perm l _).trans h).trans (List.mergeSort_perm l' _).symm
  exact hperm.eq_of_pairwise (fun a b _ _ => atMost_antisymm a b)
    (List.pairwise_mergeSort atMost_trans atMost_total l)
    (List.pairwise_mergeSort atMost_trans atMost_total l')

end Key

/-! ## Offers in the order of their keys -/

namespace Offer

/-- The order in which seeds are offered. -/
def keyAtMost (a b : Offer) : Bool :=
  a.concept.key.atMost b.concept.key

theorem map_key_mergeSort (l : List Offer) :
    (l.mergeSort keyAtMost).map (·.concept.key) =
      (l.map (·.concept.key)).mergeSort Key.atMost :=
  List.map_mergeSort fun _ _ _ _ => rfl

theorem pairwise_mergeSort (l : List Offer) :
    (l.mergeSort keyAtMost).Pairwise fun a b => a.keyAtMost b := by
  apply List.pairwise_mergeSort
  · intro a b c hab hbc
    exact Key.atMost_trans a.concept.key b.concept.key c.concept.key hab hbc
  · intro a b
    exact Key.atMost_total a.concept.key b.concept.key

namespace Reordered

/-- An offer may move past others that it may be exchanged with. -/
theorem bubble {a : Offer} {before : List Offer} (h : ∀ x ∈ before, a.Exchangeable x)
    (rest : List Offer) : Reordered (a :: (before ++ rest)) (before ++ a :: rest) := by
  induction before with
  | nil => exact .refl _
  | cons x before ih =>
      have hfirst : Reordered (a :: x :: (before ++ rest)) (x :: a :: (before ++ rest)) :=
        .swap (h x List.mem_cons_self) _
      apply hfirst.trans
      exact .cons (.refl x) (ih fun y hy => h y (List.mem_cons_of_mem _ hy))

/-- Sorted lists of the same offers differ in the order of exchangeable offers
only. -/
theorem of_sorted {l l' : List Offer} (hperm : l.Perm l')
    (hl : l.Pairwise fun a b => a.keyAtMost b) (hl' : l'.Pairwise fun a b => a.keyAtMost b)
    (hexchange : ∀ a ∈ l, ∀ b ∈ l, a.concept.key = b.concept.key → a.Exchangeable b) :
    Reordered l l' := by
  induction l generalizing l' with
  | nil =>
      obtain rfl := hperm.nil_eq
      exact .nil
  | cons a l ih =>
      obtain ⟨hfirst, hrest⟩ := List.pairwise_cons.1 hl
      obtain ⟨before, rest, rfl⟩ := List.append_of_mem (hperm.subset List.mem_cons_self)
      have hperm' : l.Perm (before ++ rest) := (hperm.trans List.perm_middle).cons_inv
      have hsorted : (before ++ rest).Pairwise fun a b => a.keyAtMost b :=
        hl'.sublist (List.Sublist.append_left (List.sublist_cons_self a rest) before)
      -- Whatever stands before `a` in the other list has a key neither less nor greater.
      have hbefore : ∀ x ∈ before, a.Exchangeable x := by
        intro x hx
        have hmem : x ∈ l := hperm'.symm.subset (List.mem_append_left _ hx)
        have hle : x.keyAtMost a :=
          (List.pairwise_append.1 hl').2.2 x hx a List.mem_cons_self
        exact hexchange a List.mem_cons_self x (List.mem_cons_of_mem _ hmem)
          (Key.atMost_antisymm _ _ (hfirst x hmem) hle)
      have htail : Reordered l (before ++ rest) :=
        ih hperm' hrest hsorted fun x hx y hy =>
          hexchange x (List.mem_cons_of_mem _ hx) y (List.mem_cons_of_mem _ hy)
      exact (Reordered.cons (.refl a) htail).trans (bubble hbefore rest)

/-- The least key among reordered offers is the same. -/
theorem least_eq {l l' : List Offer} (h : Reordered l l') :
    (l.mergeSort keyAtMost).head?.map (·.concept.key) =
      (l'.mergeSort keyAtMost).head?.map (·.concept.key) := by
  rw [← List.head?_map, ← List.head?_map, map_key_mergeSort, map_key_mergeSort,
    Key.mergeSort_eq_of_perm h.keys_perm]

end Reordered

/-- The offer of a seed, with nothing said of its position. -/
def ofSeed (seed : Concept) : Offer :=
  { concept := seed, origin := .seed 0, parent := none, depth := 0 }

/-- The offer with nothing said of the position of a seed. -/
def forgetPosition (offer : Offer) : Offer :=
  { offer with origin := offer.origin.forgetPosition }

theorem reordered_forgetPosition (l : List Offer) : Reordered l (l.map forgetPosition) := by
  induction l with
  | nil => exact .nil
  | cons a l ih =>
      have hfirst : a.Alike a.forgetPosition := by
        refine ⟨rfl, ?_, rfl, rfl⟩
        show a.origin.forgetPosition = a.origin.forgetPosition.forgetPosition
        cases a.origin <;> rfl
      exact .cons hfirst ih

theorem map_forgetPosition_mergeSort (l : List Offer) :
    (l.mergeSort keyAtMost).map forgetPosition =
      (l.map forgetPosition).mergeSort keyAtMost :=
  List.map_mergeSort fun _ _ _ _ => rfl

theorem ofSeeds_forgetPosition (seeds : List Concept) :
    (ofSeeds seeds).map forgetPosition = (seeds.map ofSeed).mergeSort keyAtMost := by
  have hseeds : seeds.zipIdx.map (ofSeed ∘ Prod.fst) = seeds.map ofSeed := by
    rw [← List.map_map, List.zipIdx_map_fst]
  show (List.mergeSort _ keyAtMost).map forgetPosition = _
  rw [map_forgetPosition_mergeSort, List.map_map, ← hseeds]
  rfl

/-- The offers of seeds are reordered to the same offers in any order of their keys. -/
theorem reordered_of_sorted {seeds : List Concept} {offers : List Offer}
    (hperm : (seeds.map ofSeed).Perm offers)
    (hoffers : offers.Pairwise fun a b => a.keyAtMost b) : Reordered (ofSeeds seeds) offers := by
  have hforget := reordered_forgetPosition (ofSeeds seeds)
  rw [ofSeeds_forgetPosition] at hforget
  apply hforget.trans
  apply Reordered.of_sorted ((List.mergeSort_perm _ _).trans hperm) (pairwise_mergeSort _) hoffers
  intro a ha b hb hkey
  obtain ⟨seed, -, rfl⟩ := List.mem_map.1 (List.mem_mergeSort.1 ha)
  obtain ⟨seed', -, rfl⟩ := List.mem_map.1 (List.mem_mergeSort.1 hb)
  exact ⟨hkey, rfl, rfl, rfl⟩

theorem reordered_mergeSort (seeds : List Concept) :
    Reordered (ofSeeds seeds) ((seeds.map ofSeed).mergeSort keyAtMost) :=
  reordered_of_sorted (List.mergeSort_perm _ _).symm (pairwise_mergeSort _)

/-- The same seeds in another order lead to the same offers, up to the order among
seeds with one key. -/
theorem reordered_ofSeeds {seeds seeds' : List Concept} (hperm : seeds.Perm seeds') :
    Reordered (ofSeeds seeds) (ofSeeds seeds') := by
  have hoffers : (seeds.map ofSeed).Perm ((seeds'.map ofSeed).mergeSort keyAtMost) :=
    (hperm.map ofSeed).trans (List.mergeSort_perm _ _).symm
  exact (reordered_of_sorted hoffers (pairwise_mergeSort _)).trans (reordered_mergeSort seeds').symm

end Offer

/-! ## Models that differ in positions only -/

/-- The models hold the same concepts under the same identifiers, from the same
origins up to the positions of seeds, in the same order and with the same
exported text, and their statistics agree up to the distinction between merges
and repetitions. -/
structure Model.Alike (a b : Model) : Prop where
  store : a.store.Alike b.store
  order : a.order = b.order
  exported : a.exported = b.exported
  stats : a.stats.pooled = b.stats.pooled

theorem toExport_forgetPosition (store : Store) (entry : Entry) :
    entry.forgetPosition.toExport store.forgetPositions = entry.toExport store := by
  have horigin : entry.origin.forgetPosition.toExport = entry.origin.toExport := by
    cases entry.origin <;> rfl
  unfold Entry.toExport Entry.forgetPosition
  rw [Store.dependencies_forgetPositions, horigin]

theorem exported_forgetPositions (model : Model) :
    ({ model with store := model.store.forgetPositions } : Model).exported = model.exported := by
  have hentries : ({ model with store := model.store.forgetPositions } : Model).entries =
      model.entries.map Entry.forgetPosition := by
    unfold Model.entries
    rw [List.map_filterMap]
    congr 1
    funext id
    exact Store.get?_forgetPositions model.store id
  unfold Model.exported
  rw [hentries]
  unfold Json.ofList
  rw [List.map_map]
  congr 3
  funext entry
  exact toExport_forgetPosition model.store entry

namespace Run

variable {registry : Registry} {settings : Settings} {a b : Run}

theorem dangling_forgetPositions (store : Store) :
    store.forgetPositions.dangling =
      store.dangling.map fun (entry, target) => (entry.forgetPosition, target) := by
  unfold Store.dangling
  rw [show store.forgetPositions.entries = store.entries.map Entry.forgetPosition from rfl,
    Array.toList_map, List.flatMap_map, List.map_flatMap]
  congr 1
  funext entry
  rw [List.map_map]
  rfl

theorem head?_dangling_forgetPositions (store : Store) :
    store.dangling.head?.map (·.1.key) = store.forgetPositions.dangling.head?.map (·.1.key) := by
  rw [dangling_forgetPositions, List.head?_map, Option.map_map]
  rfl

/-- Twins have left the same unresolved, up to the order of the offers that
wait. -/
theorem loose?_alike (h : Twin a b) :
    (a.loose? = none ∧ b.loose? = none) ∨
      ∃ error error', a.loose? = some error ∧ b.loose? = some error' ∧ error.Alike error' := by
  have hleast : a.leastDeferred?.map (·.concept.key) = b.leastDeferred?.map (·.concept.key) :=
    h.deferred.least_eq
  have hdangling : a.store.dangling.head?.map (·.1.key) = b.store.dangling.head?.map (·.1.key) := by
    rw [head?_dangling_forgetPositions, h.store, ← head?_dangling_forgetPositions]
  unfold loose?
  cases hleft : a.leastDeferred? with
  | some offer =>
      cases hright : b.leastDeferred? with
      | none => rw [hleft, hright] at hleast; cases hleast
      | some offer' =>
          rw [hleft, hright] at hleast
          exact .inr ⟨_, _, rfl, rfl, rfl, hleast⟩
  | none =>
      cases hright : b.leastDeferred? with
      | some offer' => rw [hleft, hright] at hleast; cases hleast
      | none =>
          dsimp only
          cases ha : a.store.dangling.head? with
          | none =>
              cases hb : b.store.dangling.head? with
              | none => exact .inl ⟨rfl, rfl⟩
              | some loose => rw [ha, hb] at hdangling; cases hdangling
          | some loose =>
              cases hb : b.store.dangling.head? with
              | none => rw [ha, hb] at hdangling; cases hdangling
              | some loose' =>
                  rw [ha, hb] at hdangling
                  exact .inr ⟨_, _, rfl, rfl, rfl, hdangling⟩

/-- Twins that leave nothing unresolved yield models that are alike. -/
theorem model_alike (h : Twin a b) :
    Model.Alike
      { store := a.store, order := a.store.precedence
        stats := { a.stats with concepts := a.store.size } }
      { store := b.store, order := b.store.precedence
        stats := { b.stats with concepts := b.store.size } } := by
  have hstats := congrArg (fun stats : Stats => { stats with concepts := b.store.size }) h.stats
  refine ⟨h.store, h.store.precedence, ?_, ?_⟩
  · rw [← exported_forgetPositions, ← exported_forgetPositions { store := b.store, .. }]
    dsimp only
    rw [h.store, h.store.precedence]
    rfl
  · show Stats.pooled { a.stats with concepts := a.store.size } = _
    rw [h.store.size]
    exact hstats

theorem finish_agree (h : Twin a b) :
    Agree ExpansionError.Alike Model.Alike a.finish b.finish := by
  unfold finish
  obtain ⟨hleft, hright⟩ | ⟨error, error', hleft, hright, halike⟩ := loose?_alike h
  · rw [hleft, hright]
    exact .ok (model_alike h)
  · rw [hleft, hright]
    exact .error halike

end Run

/-- The seeds in another order lead to the same model, or to a failure of the same
kind at the same concept. -/
theorem expand_perm {registry : Registry} {settings : Settings} {seeds seeds' : List Concept}
    (hrules : registry.IgnoresPositions) (hperm : seeds.Perm seeds') :
    Agree ExpansionError.Alike Model.Alike (registry.expand settings seeds)
      (registry.expand settings seeds') := by
  have hempty : Run.Twin (Run.beforeSeeds registry seeds.length)
      (Run.beforeSeeds registry seeds'.length) := by
    rw [hperm.length_eq]
    exact .refl (Store.wellFormed_empty _)
  have hstart : Run.Together (Run.start registry settings seeds)
      (Run.start registry settings seeds') := by
    apply Agree.bind (Run.foldlM_together Run.receive_together Run.receive_swap
      (Offer.reordered_ofSeeds hperm) hempty)
    exact Run.retry_together
  unfold Registry.expand
  apply Agree.bind hstart
  intro a b h
  apply Agree.bind (Run.toFixpoint_together hrules h)
  exact Run.finish_agree

/-! ## A ballot -/

namespace Ballot

/-- A ballot elects a person, whatever the votes. -/
def elect : Rule where
  name := "elect"
  expand _ _ := .ok [{ kind := "P", fields := [.int 1] }]

/-- Ballots, on which votes add up, persons, and letters to them. -/
def registry : Registry where
  schema := .ofKinds
    [{ name := "B", cumulative := .ofNames ["votes"] }, { name := "L", keyFields := ["to"] },
      { name := "P", keyFields := ["n"] }]
  rules := .ofList [("B", [elect])]

/-- Some votes. -/
def votes (value : Int64) : Concept :=
  { kind := "B", payload := .ofList [("votes", .int value)] }

/-- A letter to a person who has not been elected yet. -/
def letter : Concept :=
  { kind := "L", fields := [.ref "P" [.int 1]] }

theorem ignoresPositions : registry.IgnoresPositions := by
  intro kind rule hrule concept store store' _
  obtain ⟨rules, hrules, hrule⟩ := Run.mem_rulesFor_iff.1 hrule
  have hentries : registry.rules.entries = [("B", [elect])] := by cbv
  rw [hentries] at hrules
  cases List.mem_singleton.1 hrules
  rw [List.mem_singleton.1 hrule]
  rfl

/-- Votes for one ballot may be given in either order, before or after a letter
that has to wait. -/
theorem expand_swap : ∃ model model',
    registry.expand {} [votes 1, letter, votes 2] = .ok model ∧
      registry.expand {} [letter, votes 2, votes 1] = .ok model' ∧ model.Alike model' := by
  have hperm : [votes 1, letter, votes 2].Perm [letter, votes 2, votes 1] :=
    (List.perm_append_singleton (votes 1) [letter, votes 2]).symm
  obtain ⟨model, hmodel, -⟩ := Run.exists_model_of_after registry {} [votes 1, letter, votes 2] 4
    (fun _ => true) (by cbv)
  have hagree : Agree ExpansionError.Alike Model.Alike
      (registry.expand {} [votes 1, letter, votes 2])
      (registry.expand {} [letter, votes 2, votes 1]) :=
    expand_perm ignoresPositions hperm
  rw [hmodel] at hagree
  obtain ⟨model', hmodel', halike⟩ := hagree.of_ok
  exact ⟨model, model', hmodel, hmodel', halike⟩

end Ballot

end ConceptExpansion
