/-
# Offers made again

To make an offer again right away adds nothing. An offer that had to wait waits
once more, and one that was placed finds itself stored. So a run that takes in
some of its offers twice echoes the run that takes them in once: the stores, the
lineages and what is fresh are the same, and the runs differ only in repeated
deferred offers and in the counts of seeds, repetitions and deferrals. A run and
its echo go through the same waves and rounds, whatever the rules do, and since
more seeds do not have a smaller budget, the echo succeeds wherever the run does.
-/

import ConceptExpansion.Proofs.Run.Quiescence

namespace ConceptExpansion

/-! ## Lists with repetitions -/

namespace Offer

/-- The second list repeats some offers of the first where they stand. -/
inductive Echoed : List Offer → List Offer → Prop
  | nil : Echoed [] []
  | cons (a : Offer) {l l' : List Offer} (h : Echoed l l') : Echoed (a :: l) (a :: l')
  | again (a : Offer) (l : List Offer) : Echoed (a :: l) (a :: a :: l)
  | trans {l l' l'' : List Offer} (h : Echoed l l') (h' : Echoed l' l'') : Echoed l l''

namespace Echoed

variable {l l' : List Offer}

theorem refl (l : List Offer) : Echoed l l := by
  induction l with
  | nil => exact .nil
  | cons a l ih => exact .cons a ih

theorem append_left (m : List Offer) (h : Echoed l l') : Echoed (m ++ l) (m ++ l') := by
  induction m with
  | nil => exact h
  | cons a m ih => exact .cons a ih

theorem append_right (h : Echoed l l') (m : List Offer) : Echoed (l ++ m) (l' ++ m) := by
  induction h with
  | nil => exact .refl m
  | cons a _ ih => exact .cons a ih
  | again a l => exact .again a (l ++ m)
  | trans _ _ ih ih' => exact .trans ih ih'

/-- Repetitions add no offer that was not there. -/
theorem mem_iff (h : Echoed l l') {offer : Offer} : offer ∈ l ↔ offer ∈ l' := by
  induction h with
  | nil => exact Iff.rfl
  | cons a _ ih => rw [List.mem_cons, List.mem_cons, ih]
  | again a l => simp
  | trans _ _ ih ih' => exact ih.trans ih'

/-- Repetitions keep a list sorted. -/
theorem pairwise {R : Offer → Offer → Prop} (hrefl : ∀ a, R a a) (h : Echoed l l')
    (hl : l.Pairwise R) : l'.Pairwise R := by
  induction h with
  | nil => exact hl
  | cons a h ih =>
      obtain ⟨hfirst, hrest⟩ := List.pairwise_cons.1 hl
      exact List.pairwise_cons.2 ⟨fun b hb => hfirst b (h.mem_iff.2 hb), ih hrest⟩
  | again a l =>
      refine List.pairwise_cons.2 ⟨fun b hb => ?_, hl⟩
      rcases List.mem_cons.1 hb with rfl | hb
      · exact hrefl b
      · exact (List.pairwise_cons.1 hl).1 b hb
  | trans _ _ ih ih' => exact ih' (ih hl)

theorem eq_nil (h : Echoed [] l) : l = [] :=
  List.eq_nil_iff_forall_not_mem.2 fun _ hmem => List.not_mem_nil (h.mem_iff.2 hmem)

end Echoed

end Offer

namespace Run

variable {registry : Registry} {settings : Settings} {run run' next : Run} {offer : Offer}
  {jobs : List Job}

/-! ## A run and its echo -/

/-- The second run differs from the first in nothing but repeated deferred offers
and the counts of seeds, repetitions and deferrals, and it has as many seeds or
more. -/
inductive Echoes (run : Run) : Run → Prop
  | intro {deferred : List Offer} {seeds alreadyPresent deferrals : Nat}
      (hrun : run.store.WellFormed) (hdeferred : Offer.Echoed run.deferred deferred)
      (hseeds : run.stats.seeds ≤ seeds) :
      Echoes run { run with
        deferred := deferred
        stats := { run.stats with
          seeds := seeds, alreadyPresent := alreadyPresent, deferrals := deferrals } }

namespace Echoes

theorem refl (hrun : run.store.WellFormed) : Echoes run run :=
  .intro hrun (.refl _) le_rfl

theorem trans {a b c : Run} (hab : Echoes a b) (hbc : Echoes b c) : Echoes a c := by
  cases hab with
  | intro ha hdeferred hseeds =>
      cases hbc with
      | intro _ hdeferred' hseeds' =>
          exact .intro ha (hdeferred.trans hdeferred') (hseeds.trans hseeds')

theorem deferred (h : Echoes run run') : Offer.Echoed run.deferred run'.deferred := by
  cases h with
  | intro _ hdeferred => exact hdeferred

theorem store (h : Echoes run run') : run'.store = run.store := by
  cases h with
  | intro => rfl

theorem fresh (h : Echoes run run') : run'.fresh = run.fresh := by
  cases h with
  | intro => rfl

theorem phase (h : Echoes run run') : run'.phase = run.phase := by
  cases h with
  | intro => rfl

theorem wellFormed_right (h : Echoes run run') : run'.store.WellFormed := by
  rw [h.store]
  cases h with
  | intro hrun => exact hrun

/-- A run and its echo expand the same concepts next. -/
theorem wave (h : Echoes run run') : run'.wave = run.wave := by
  cases h with
  | intro => rfl

theorem waveJobs (h : Echoes run run') (ids : List ConceptId) :
    run'.beginWave.waveJobs registry ids = run.beginWave.waveJobs registry ids := by
  cases h with
  | intro => rfl

theorem reviewJobs (h : Echoes run run') :
    run'.reviewJobs registry = run.reviewJobs registry := by
  cases h with
  | intro => rfl

end Echoes

/-- The second attempt succeeds wherever the first does, in an echo of the state
that the first ends in. -/
abbrev Echo : Except ExpansionError Run → Except ExpansionError Run → Prop :=
  Follows Echoes

theorem Echo.trans {x y z : Except ExpansionError Run} (hxy : Echo x y) (hyz : Echo y z) :
    Echo x z :=
  Follows.trans hxy hyz Echoes.trans

/-! ## The same offer -/

theorem place_echo (h : Echoes run run') :
    Echo (run.place settings offer) (run'.place settings offer) := by
  cases h with
  | intro hrun hdeferred hseeds =>
      rw [place_eq, place_eq]
      dsimp only
      cases hinsert : run.store.insert offer.concept offer.origin with
      | error cause => exact .error
      | ok answer =>
          obtain ⟨admission, store⟩ := answer
          have hstore := hrun.insert hinsert
          dsimp only
          split
          · exact .error
          · apply Follows.ok
            cases admission <;> exact .intro hstore hdeferred hseeds

theorem receive_echo (h : Echoes run run') :
    Echo (run.receive settings offer) (run'.receive settings offer) := by
  have hplace : Echo (run.place settings offer) (run'.place settings offer) :=
    place_echo h
  unfold receive
  cases h with
  | intro hrun hdeferred hseeds =>
      dsimp only
      cases run.store.schema.validate offer.concept with
      | error cause => exact .error
      | ok kind =>
          dsimp only
          cases run.store.missingTarget? offer.concept with
          | some target =>
              exact .ok (.intro hrun (hdeferred.append_right [offer]) hseeds)
          | none => exact hplace

theorem reconsider_echo (h : Echoes run run') :
    Echo (run.reconsider settings offer) (run'.reconsider settings offer) := by
  have hplace : Echo (run.place settings offer) (run'.place settings offer) :=
    place_echo h
  unfold reconsider
  cases h with
  | intro hrun hdeferred hseeds =>
      dsimp only
      cases run.store.missingTarget? offer.concept with
      | some target =>
          exact .ok (.intro hrun (hdeferred.append_right [offer]) hseeds)
      | none => exact hplace

/-! ## The same offer again -/

theorem echoed_concat (l : List Offer) (offer : Offer) :
    Offer.Echoed (l ++ [offer]) (l ++ [offer] ++ [offer]) := by
  rw [List.append_assoc]
  exact (Offer.Echoed.again offer []).append_left l

/-- An offer that has just been placed is placed again to no effect. -/
theorem place_again (hrun : run.store.WellFormed) (h : run.place settings offer = .ok next) :
    next.store.Represents offer.concept ∧
      Echo (.ok next) (next.place settings offer) := by
  obtain ⟨admission, store, hinsert, rfl⟩ := insert_of_place h
  have hstore := hrun.insert hinsert
  have hrepresents := hrun.represents_of_insert hinsert
  obtain ⟨id, hagain⟩ := hrepresents.insert_eq hstore offer.origin
  rw [place_eq, record_store, hagain]
  refine ⟨hrepresents, .ok ?_⟩
  cases admission <;> exact .intro hstore (.refl _) le_rfl

/-- An offer that has just been received is received again to no effect, except
that it waits twice if it has to wait. -/
theorem receive_again (hrun : run.store.WellFormed)
    (h : run.receive settings offer = .ok next) :
    Echo (.ok next) (next.receive settings offer) := by
  obtain ⟨⟨kind, hvalid⟩, ⟨target, hmissing, rfl⟩ | ⟨-, hplace⟩⟩ := receive_cases h
  · unfold receive
    dsimp only
    rw [hvalid, hmissing]
    exact .ok (.intro hrun (echoed_concat _ _) le_rfl)
  · obtain ⟨hrepresents, hfollows⟩ := place_again hrun hplace
    have hnext := (carries_of_place hrun hplace).1.wellFormed
    obtain ⟨kind', hvalid'⟩ := hnext.validate_of_represents hrepresents
    unfold receive
    rw [hvalid', hrepresents.missingTarget? hnext]
    exact hfollows

theorem reconsider_again (hrun : run.store.WellFormed)
    (h : run.reconsider settings offer = .ok next) :
    Echo (.ok next) (next.reconsider settings offer) := by
  obtain ⟨target, hmissing, rfl⟩ | ⟨-, hplace⟩ := reconsider_cases h
  · have hagain : ({ run with deferred := run.deferred ++ [offer] } : Run).store.missingTarget?
        offer.concept = some target := hmissing
    rw [reconsider_of_missing hagain]
    exact .ok (.intro hrun (echoed_concat _ _) le_rfl)
  · obtain ⟨hrepresents, hfollows⟩ := place_again hrun hplace
    rw [reconsider_of_none (hrepresents.missingTarget? (carries_of_place hrun hplace).1.wellFormed)]
    exact hfollows

/-! ## Lists of offers -/

/-- A run that takes in repeated offers follows one that takes them in once, if it
does so for the same offer and for the same offer again. -/
theorem foldlM_echo {f : Run → Offer → Except ExpansionError Run} {l l' : List Offer}
    (hsame : ∀ {a b : Run} {offer : Offer}, Echoes a b → Echo (f a offer) (f b offer))
    (hagain : ∀ {run next : Run} {offer : Offer}, run.store.WellFormed →
      f run offer = .ok next → Echo (.ok next) (f next offer))
    (hoffers : Offer.Echoed l l') (h : Echoes run run') :
    Echo (l.foldlM f run) (l'.foldlM f run') := by
  induction hoffers generalizing run run' with
  | nil => exact .ok h
  | cons a _ ih =>
      rw [List.foldlM_cons, List.foldlM_cons]
      exact Follows.bind (hsame h) ih
  | again a l =>
      have hrepeat : Echo (f run' a) (f run' a >>= fun next => f next a) := by
        cases hfirst : f run' a with
        | error error => exact .error
        | ok next => exact hagain h.wellFormed_right hfirst
      rw [List.foldlM_cons, List.foldlM_cons]
      simp only [List.foldlM_cons, ← bind_assoc]
      apply Follows.bind ((hsame h).trans hrepeat)
      intro next next' hnext
      exact Follows.foldlM hsame hnext
  | trans _ _ ih ih' => exact (ih h).trans (ih' (.refl h.wellFormed_right))

theorem retryPass_echo (h : Echoes run run') :
    Echo (run.retryPass settings) (run'.retryPass settings) := by
  have hempty : Echoes { run with deferred := [] } { run' with deferred := [] } := by
    cases h with
    | intro hrun hdeferred hseeds => exact .intro hrun .nil hseeds
  unfold retryPass
  exact foldlM_echo reconsider_echo reconsider_again h.deferred hempty

/-- A pass of an echo leaves fewer offers deferred if the pass of the run does. -/
theorem retryPass_lt_congr (h : Echoes run run') {next' : Run}
    (hpass : run.retryPass settings = .ok next) (hpass' : run'.retryPass settings = .ok next') :
    next.deferred.length < run.deferred.length ↔
      next'.deferred.length < run'.deferred.length := by
  rw [retryPass_lt_iff hpass, retryPass_lt_iff hpass', h.store]
  apply exists_congr
  intro offer
  rw [h.deferred.mem_iff]

theorem retry_echo (h : Echoes run run') :
    Echo (run.retry settings) (run'.retry settings) := by
  fun_induction retry settings run generalizing run' with
  | case1 run error hpass => exact .error
  | case2 run next hpass hlt ih =>
      have hpasses : Echo (run.retryPass settings) (run'.retryPass settings) := retryPass_echo h
      rw [hpass] at hpasses
      obtain ⟨next', hpass', hnext⟩ := hpasses.of_ok
      rw [retry_of_lt hpass' ((retryPass_lt_congr h hpass hpass').1 hlt)]
      exact ih hnext
  | case3 run next hpass hnlt =>
      have hpasses : Echo (run.retryPass settings) (run'.retryPass settings) := retryPass_echo h
      rw [hpass] at hpasses
      obtain ⟨next', hpass', hnext⟩ := hpasses.of_ok
      rw [retry_of_not_lt hpass' fun hlt => hnlt ((retryPass_lt_congr h hpass hpass').2 hlt)]
      exact .ok hnext

/-! ## Batches and steps -/

/-- A batch that the budget of a run covers is covered by that of its echo. -/
theorem charge_echo (h : Echoes run run') :
    Echo (run.charge settings jobs) (run'.charge settings jobs) := by
  cases h with
  | intro hrun hdeferred hseeds =>
      have hbudget := settings.budget_mono hseeds
      unfold charge
      dsimp only
      split
      · exact .error
      · rw [dif_neg (by omega)]
        exact .ok (.intro hrun hdeferred hseeds)

theorem absorb_echo {answered : Job × Except RuleFailure (List Concept)}
    (h : Echoes run run') :
    Echo (run.absorb settings answered) (run'.absorb settings answered) := by
  have hreceive : ∀ offers : List Offer,
      Echo (offers.foldlM (receive settings) run) (offers.foldlM (receive settings) run') :=
    fun _ => Follows.foldlM receive_echo h
  obtain ⟨job, answer⟩ := answered
  unfold absorb
  cases h with
  | intro hrun hdeferred hseeds =>
      dsimp only
      cases run.store.get? job.source with
      | none => exact .ok (.intro hrun hdeferred hseeds)
      | some entry =>
          cases answer with
          | error failure => exact .error
          | ok products => exact hreceive (run.offersOf job entry.key products)

theorem runBatch_echo (h : Echoes run run') :
    Echo (run.runBatch settings jobs) (run'.runBatch settings jobs) := by
  unfold runBatch
  apply Follows.bind (charge_echo h)
  intro a b hcharged
  have hbegin : Echoes a.beginBatch b.beginBatch := by
    cases hcharged with
    | intro hrun hdeferred hseeds => exact .intro hrun hdeferred hseeds
  dsimp only
  rw [hcharged.store]
  exact Follows.bind (Follows.foldlM absorb_echo hbegin) retry_echo

theorem wave_echo (h : Echoes run run') (jobs : List Job) :
    Echo (run.beginWave.runBatch settings jobs >>= fun batch =>
        .ok (batch.mark .expanded run.wave))
      (run'.beginWave.runBatch settings jobs >>= fun batch =>
        .ok (batch.mark .expanded run.wave)) := by
  have hbegin : Echoes run.beginWave run'.beginWave := by
    cases h with
    | intro hrun hdeferred hseeds => exact .intro hrun hdeferred hseeds
  apply Follows.bind (runBatch_echo hbegin)
  intro a b hbatch
  apply Follows.ok
  cases hbatch with
  | intro hrun hdeferred hseeds => exact .intro hrun hdeferred hseeds

theorem round_echo (h : Echoes run run') (jobs : List Job) :
    Echo (run.beginReview.runBatch settings jobs >>= fun batch =>
        .ok { batch with phase := if batch.changed then .expanding else .settled })
      (run'.beginReview.runBatch settings jobs >>= fun batch =>
        .ok { batch with phase := if batch.changed then .expanding else .settled }) := by
  have hbegin : Echoes run.beginReview run'.beginReview := by
    cases h with
    | intro hrun hdeferred hseeds => exact .intro hrun hdeferred hseeds
  apply Follows.bind (runBatch_echo hbegin)
  intro a b hbatch
  apply Follows.ok
  cases hbatch with
  | intro hrun hdeferred hseeds => exact .intro hrun hdeferred hseeds

/-- A run and its echo are in the same phase, with the same wave and the same jobs
ahead. -/
theorem step_echo (h : Echoes run run') :
    Echo (run.step registry settings) (run'.step registry settings) := by
  have hjobs : run'.reviewJobs registry = run.reviewJobs registry := h.reviewJobs
  cases hrun : run.phase with
  | expanding =>
      by_cases hempty : run.fresh = #[]
      · rw [step_turn hrun hempty, step_turn (h.phase.trans hrun) (h.fresh.trans hempty)]
        apply Follows.ok
        cases h with
        | intro hwell hdeferred hseeds => exact .intro hwell hdeferred hseeds
      · rw [step_wave hrun hempty, step_wave (h.phase.trans hrun) (h.fresh ▸ hempty)]
        rw [h.wave, h.waveJobs]
        exact wave_echo h _
  | reviewing =>
      by_cases hnone : run.reviewJobs registry = []
      · rw [step_idle hrun hnone, step_idle (h.phase.trans hrun) (hjobs.trans hnone)]
        apply Follows.ok
        cases h with
        | intro hwell hdeferred hseeds => exact .intro hwell hdeferred hseeds
      · rw [step_round hrun hnone, step_round (h.phase.trans hrun) (hjobs ▸ hnone), hjobs]
        exact round_echo h _
  | settled =>
      rw [step_of_settled hrun, step_of_settled (h.phase.trans hrun)]
      exact .ok h

theorem toFixpoint_echo (h : Echoes run run') :
    Echo (run.toFixpoint registry settings) (run'.toFixpoint registry settings) := by
  fun_induction Run.toFixpoint registry settings run generalizing run' with
  | case1 run hphase =>
      rw [toFixpoint_of_settled (h.phase.trans hphase)]
      exact .ok h
  | case2 run hphase error hstep => exact .error
  | case3 run hphase next hstep ih =>
      have hsteps : Echo (run.step registry settings) (run'.step registry settings) :=
        step_echo h
      rw [hstep] at hsteps
      obtain ⟨next', hstep', hnext⟩ := hsteps.of_ok
      rw [toFixpoint_of_step hstep']
      exact ih hnext

/-- Where a run leaves nothing loose, its echo does not either. -/
theorem loose?_of_echoes (h : Echoes run run') (hloose : run.loose? = none) :
    run'.loose? = none := by
  obtain ⟨hdeferred, hdangling⟩ := loose?_eq_none_iff.1 hloose
  have hechoed := h.deferred
  rw [hdeferred] at hechoed
  exact loose?_eq_none_iff.2 ⟨hechoed.eq_nil, h.store ▸ hdangling⟩

end Run

end ConceptExpansion
