/-
# Batches of rule invocations

A batch is a list of jobs, each of which asks one rule about one stored concept.
All jobs of a batch read the store as it stood when the batch began; their
answers are absorbed in the order of the jobs, and then the deferred offers are
tried again. Two kinds of batch occur: a wave asks every rule about the concepts
that were admitted last, and a round of review asks the model-reading rules
about every concept they are for.
-/

import ConceptExpansion.Run.Intake

namespace ConceptExpansion

/-- The invocation of a rule on a stored concept. -/
structure Job where
  /-- The concept. -/
  source : ConceptId
  /-- The rule. -/
  rule : Rule

/-- What the rule of a job answers when it reads this store. -/
def Job.answer (store : Store) (job : Job) : Except RuleFailure (List Concept) :=
  match store.get? job.source with
  | some entry => job.rule.expand entry.concept store
  | none => .ok []

namespace Run

variable (registry : Registry) (settings : Settings)

/-- Charges a batch to the budget, if there is enough of it left. If not, the
culprit is the concept of the first job that the budget does not cover. -/
def charge (run : Run) (jobs : List Job) : Except ExpansionError Run :=
  let budget := settings.budget run.stats.seeds
  let available := budget - run.stats.ruleInvocations
  if h : available < jobs.length then
    .error (.nonTerminating (.expansions budget) (run.chain jobs[available].source))
  else
    .ok { run with
      stats := { run.stats with ruleInvocations := run.stats.ruleInvocations + jobs.length } }

/-- The offers that the products of a job amount to. -/
def offersOf (run : Run) (job : Job) (source : Key) (products : List Concept) : List Offer :=
  products.map fun concept =>
    { concept
      origin := .rule job.rule.name source
      parent := some job.source
      depth := run.depthOf job.source + 1 }

/-- Takes in the answer of a job. -/
def absorb (run : Run) (answered : Job × Except RuleFailure (List Concept)) :
    Except ExpansionError Run :=
  let (job, answer) := answered
  match run.store.get? job.source with
  | none => .ok run
  | some entry =>
    match answer with
    | .error failure => .error (.ruleInvocation job.rule.name entry.key (.failed failure))
    | .ok products => (run.offersOf job entry.key products).foldlM (receive settings) run

/-- An answer that is absorbed is about a concept that is not stored, or it is a list of
products, and these are received. -/
theorem absorb_cases {settings : Settings} {run next : Run} {job : Job}
    {answer : Except RuleFailure (List Concept)}
    (h : run.absorb settings (job, answer) = .ok next) :
    (run.store.get? job.source = none ∧ next = run) ∨
    ∃ entry products, run.store.get? job.source = some entry ∧ answer = .ok products ∧
      (run.offersOf job entry.key products).foldlM (receive settings) run = .ok next := by
  unfold absorb at h
  dsimp only at h
  split at h
  · next hnone => exact .inl ⟨hnone, (Except.ok.inj h).symm⟩
  · next entry hentry =>
      split at h
      · cases h
      · next products => exact .inr ⟨entry, products, hentry, rfl, h⟩

/-- The state in which a batch has admitted nothing and changed nothing yet. -/
def beginBatch (run : Run) : Run :=
  { run with fresh := #[], changed := false }

/-- Runs a batch of jobs. -/
def runBatch (run : Run) (jobs : List Job) : Except ExpansionError Run := do
  let charged ← run.charge settings jobs
  let answers := jobs.map (Job.answer charged.store)
  let absorbed ← (jobs.zip answers).foldlM (absorb settings) charged.beginBatch
  absorbed.retry settings

/-- Whether the key of one stored concept is at most that of another. -/
def keyAtMost (run : Run) (a b : ConceptId) : Bool :=
  match run.store.get? a, run.store.get? b with
  | some a, some b => a.key.atMost b.key
  | none, _ => true
  | some _, none => false

/-- The concepts to expand next: those admitted last, by ascending key. -/
def wave (run : Run) : List ConceptId :=
  (run.fresh.toList.mergeSort run.keyAtMost).eraseReps

/-- The jobs of a wave: for every concept the rules of its kind. -/
def waveJobs (run : Run) (wave : List ConceptId) : List Job :=
  wave.flatMap fun id =>
    match run.store.get? id with
    | some entry => (registry.rulesFor entry.concept.kind).map fun rule => ⟨id, rule⟩
    | none => []

/-- The state in which the rules are invoked on a wave. -/
def beginWave (run : Run) : Run :=
  ({ run with stats := { run.stats with waves := run.stats.waves + 1 } }).mark .expanding run.wave

/-- Expands the concepts that were admitted last. -/
def expandWave (run : Run) : Except ExpansionError Run :=
  match run.beginWave.runBatch settings (run.beginWave.waveJobs registry run.wave) with
  | .error error => .error error
  | .ok next => .ok (next.mark .expanded run.wave)

/-- The jobs of a round of review: for every kind with model-reading rules, and
for every stored concept of the kind, those rules. -/
def reviewJobs (run : Run) : List Job :=
  registry.modelReadingKinds.flatMap fun kind =>
    (run.store.ofKind kind).flatMap fun entry =>
      (registry.readingRulesFor kind).map fun rule => ⟨entry.id, rule⟩

/-- The state in which the model-reading rules are asked again. -/
def beginReview (run : Run) : Run :=
  { run with stats := { run.stats with reviewRounds := run.stats.reviewRounds + 1 } }

/-- Asks the model-reading rules again. The run is settled if there are none to
ask, or if their answers changed nothing. -/
def review (run : Run) : Except ExpansionError Run :=
  match run.reviewJobs registry with
  | [] => .ok { run with fresh := #[], changed := false, phase := .settled }
  | job :: jobs =>
    match run.beginReview.runBatch settings (job :: jobs) with
    | .error error => .error error
    | .ok next => .ok { next with phase := if next.changed then .expanding else .settled }

/-- One step of a run: a wave, a round of review, or the turn from waves to
review once a batch has admitted nothing. -/
def step (run : Run) : Except ExpansionError Run :=
  match run.phase with
  | .expanding =>
    if run.fresh.isEmpty then .ok { run with phase := .reviewing }
    else run.expandWave registry settings
  | .reviewing => run.review registry settings
  | .settled => .ok run

end Run

end ConceptExpansion
