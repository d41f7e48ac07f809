import FlowPath.Proofs.Path.Depth
import FlowPath.Proofs.Path.Lockstep
import FlowPath.Proofs.Path.Observed

/-!
# What a walk takes from its inputs

The parameters of functions take the inputs one after the other, wherever in the tree the functions stand
and however often a walk comes to them. `boundIn` lists the parameters that get a value, in their order, as an
observer notes them that looks at nothing else.

Two walks that differ in their inputs, and in what they do when the inputs have run out, are compared by
`Mirrored`: either the first one runs out, or the second one does the same and has taken as many inputs as
there are parameters in its list. `mirrored_walk` shows this of all trees, for any relation between the two
queues that every parameter keeps (`Feeds`). `annotate_inputs` has two such relations: the queues are the
same, or the second one has some more undefined values at its end.
-/

namespace FlowPath

variable {μ α : Type}

/-- The error is about inputs that ran out. -/
def WalkError.isNoInput : WalkError → Bool
  | .noInput _ _ => true
  | _ => false

theorem WalkError.isNoInput_of_isOfText {e : WalkError} (h : e.isOfText = true) : e.isNoInput = false := by
  cases e with
  | element | malformed | notAssignable => rfl
  | noInput | tooDeep => cases h

/-- The session with other inputs. -/
def Session.withInputs (session : Session μ) (inputs : List Value) : Session μ := { session with inputs }

namespace Outcome

/-- The walk ended because its inputs ran out. -/
def ranOut (outcome : Outcome μ α) : Bool := outcome.error.any (·.isNoInput)

/-- The outcome with other inputs. -/
def withInputs (outcome : Outcome μ α) (inputs : List Value) : Outcome μ α :=
  { outcome with session := outcome.session.withInputs inputs }

end Outcome

namespace Path

open Statement (Role joinAll)

/-! ## The parameters that get a value -/

/-- Of the parameters of a function, those that get a value. -/
def boundAt (options : WalkOptions) (inputs : List Value) (parameters : List String) : List String :=
  if options.strictInputs then parameters.take inputs.length else parameters

/-- Notes the parameters that get a value. -/
def boundObserver (options : WalkOptions) : Observer μ String where
  binding session parameters := boundAt options session.inputs parameters

/-- The parameters that get a value in the walk of a statement, in their order. -/
def boundIn (texts : Texts μ) (options : WalkOptions) (scope : Nat) (address : Address) (s : Statement)
    (session : Session μ) : List String :=
  notes (boundObserver options) texts options scope address s session

/-- The parameters of a program that get a value under the given inputs. Texts are parsed afresh, which makes
no difference to the walk (`annotate_eq_fresh`). -/
def boundParameters (options : WalkOptions) (inputs : List Value) (tree : Statement) : List String :=
  boundIn Texts.fresh options 0 [0] tree { Session.start options inputs () with trees := 1 }

/-! ## Single steps -/

section Steps

variable {texts : Texts μ} {options : WalkOptions} {session after : Session μ} {e : WalkError}

theorem test_withInputs (texts : Texts μ) (session : Session μ) (condition : String) (scope : Nat)
    (queue : List Value) :
    (session.withInputs queue).test texts condition scope =
      ((session.test texts condition scope).1, (session.test texts condition scope).2.withInputs queue) := by
  unfold Session.test
  dsimp only [Session.withInputs]
  split <;> rfl

theorem inputs_test (texts : Texts μ) (session : Session μ) (condition : String) (scope : Nat) :
    (session.test texts condition scope).2.inputs = session.inputs := by
  unfold Session.test
  split <;> rfl

theorem assign_withInputs (texts : Texts μ) (session : Session μ) (text : String) (scope : Nat)
    (queue : List Value) :
    (session.withInputs queue).assign texts text scope =
      ((session.assign texts text scope).1, (session.assign texts text scope).2.withInputs queue) := by
  unfold Session.assign
  dsimp only [Session.withInputs]
  split
  · rfl
  · split <;> rfl

theorem inputs_assign (texts : Texts μ) (session : Session μ) (text : String) (scope : Nat) :
    (session.assign texts text scope).2.inputs = session.inputs := by
  unfold Session.assign
  split
  · rfl
  · split <;> rfl

end Steps

/-! ## Two walks -/

/-- The second options take undefined values where the inputs have run out, and `R` relates what is left of
the inputs of two walks: the next parameter gets the same value in both, unless the first walk runs out. -/
structure Feeds (options lenient : WalkOptions) (R : List Value → List Value → Prop) : Prop where
  maxDepth : lenient.maxDepth = options.maxDepth
  maxRounds : lenient.maxRounds = options.maxRounds
  lenient : lenient.strictInputs = false
  next {value : Value} {inputs queue : List Value} (h : R (value :: inputs) queue) :
    queue.headD .undefined = value ∧ R inputs queue.tail
  runsOut {queue : List Value} (hstrict : options.strictInputs = true) (h : R [] queue) : queue = []
  pads {queue : List Value} (hlenient : options.strictInputs = false) (h : R [] queue) :
    queue.headD .undefined = .undefined ∧ R [] queue.tail

/-- How a walk relates to one under lenient options that starts with `queue` as its inputs and gives a value
to the parameters `bound`. -/
inductive Mirrored (options : WalkOptions) (R : List Value → List Value → Prop) (queue : List Value)
    (bound : List String) (outcome mirror : Outcome μ α) : Prop where
  /-- The inputs of the first walk run out. There are fewer than the second one needs. -/
  | ranOut (h : outcome.ranOut = true) (hstrict : options.strictInputs = true)
    (hmore : queue.length < bound.length)
  /-- The second walk does the same, and takes one input for each of the parameters. -/
  | same (h : outcome.ranOut = false) (hqueue : R outcome.session.inputs (queue.drop bound.length))
    (hmirror : mirror = outcome.withInputs (queue.drop bound.length))

section Mirrored

variable {options : WalkOptions} {R : List Value → List Value → Prop} {queue : List Value} {β : Type}

/-- A step that takes no input. -/
theorem Mirrored.still {outcome : Outcome μ α} (h : outcome.ranOut = false)
    (hqueue : R outcome.session.inputs queue) :
    Mirrored options R queue [] outcome (outcome.withInputs queue) :=
  .same h hqueue rfl

/-- What is done to the session afterwards has nothing to do with the inputs. -/
theorem Mirrored.map {bound : List String} {outcome mirror : Outcome μ α}
    (h : Mirrored options R queue bound outcome mirror) (f : α → β) (g : Session μ → Session μ)
    (hg : ∀ session inputs, g (session.withInputs inputs) = (g session).withInputs inputs)
    (hinputs : ∀ session, (g session).inputs = session.inputs) :
    Mirrored options R queue bound ⟨f outcome.value, g outcome.session, outcome.error⟩
      ⟨f mirror.value, g mirror.session, mirror.error⟩ := by
  cases h with
  | ranOut h hstrict hmore => exact .ranOut h hstrict hmore
  | same h hqueue hmirror =>
    subst hmirror
    refine .same h (hinputs outcome.session ▸ hqueue) ?_
    exact congrArg (fun session => Outcome.mk (f outcome.value) session outcome.error) (hg _ _)

/-- Two walks one after the other, where the second one is there only if the first one does not fail. -/
theorem Mirrored.andThen {bound others : List String} {outcome mirror : Outcome μ α}
    {all allMirror : Outcome μ β} (h : Mirrored options R queue bound outcome mirror)
    (hstop : outcome.ranOut = true → all.ranOut = true)
    (hgo : outcome.ranOut = false → R outcome.session.inputs (queue.drop bound.length) →
      mirror = outcome.withInputs (queue.drop bound.length) →
        Mirrored options R (queue.drop bound.length) others all allMirror) :
    Mirrored options R queue (bound ++ others) all allMirror := by
  cases h with
  | ranOut h hstrict hmore =>
    refine .ranOut (hstop h) hstrict ?_
    rw [List.length_append]
    omega
  | same h hqueue hmirror =>
    cases hgo h hqueue hmirror with
    | ranOut h hstrict hmore =>
      refine .ranOut h hstrict ?_
      rw [List.length_drop] at hmore
      rw [List.length_append]
      omega
    | same h hqueue hmirror =>
      rw [List.drop_drop, ← List.length_append] at hqueue hmirror
      exact .same h hqueue hmirror

theorem Mirrored.cons {bound : List String} {outcome mirror : Outcome μ α}
    (h : Mirrored options R queue.tail bound outcome mirror) (parameter : String) :
    Mirrored options R queue (parameter :: bound) outcome mirror := by
  cases h with
  | ranOut h hstrict hmore =>
    refine .ranOut h hstrict ?_
    rw [List.length_tail] at hmore
    rw [List.length_cons]
    omega
  | same h hqueue hmirror =>
    have hdrop : queue.tail.drop bound.length = queue.drop (parameter :: bound).length := by
      rw [List.drop_tail, List.length_cons]
    exact .same h (hdrop ▸ hqueue) (hdrop ▸ hmirror)

/-- What comes of the parameters of a function, as an outcome. -/
def bindOutcome (result : Except WalkError Unit × Session μ) : Outcome μ Unit where
  value := ()
  session := result.2
  error :=
    match result.1 with
    | .error e => some e
    | .ok () => none

theorem bindParameters_lenient (h : options.strictInputs = false) (function : String) (scope : Nat)
    (parameter : String) (rest : List String) (session : Session μ) :
    (session.withInputs queue).bindParameters options function scope (parameter :: rest) =
      ({ session with
          environment := session.environment.declare scope parameter (queue.headD .undefined) }.withInputs
        queue.tail).bindParameters options function scope rest := by
  cases queue with
  | nil => simp [Session.bindParameters, Session.withInputs, h]
  | cons value queue => rfl

variable {lenient : WalkOptions} (hfeeds : Feeds options lenient R)

include hfeeds

theorem mirrored_bindParameters (function : String) (scope : Nat) (parameters : List String)
    (session : Session μ) (hqueue : R session.inputs queue) :
    Mirrored options R queue parameters
      (bindOutcome (session.bindParameters options function scope parameters))
      (bindOutcome ((session.withInputs queue).bindParameters lenient function scope parameters)) := by
  induction parameters generalizing session queue with
  | nil => exact .still rfl hqueue
  | cons parameter rest ih =>
    rw [bindParameters_lenient hfeeds.lenient, Session.bindParameters]
    rcases hinputs : session.inputs with _ | ⟨value, inputs⟩ <;> rw [hinputs] at hqueue <;> dsimp only
    · cases hstrict : options.strictInputs with
      | true =>
        rw [if_pos rfl, hfeeds.runsOut hstrict hqueue]
        exact .ranOut rfl hstrict (Nat.zero_lt_succ _)
      | false =>
        obtain ⟨hhead, htail⟩ := hfeeds.pads hstrict hqueue
        rw [hhead]
        let bound : Session μ :=
          { session with
            inputs := [], environment := session.environment.declare scope parameter .undefined }
        exact (ih bound htail).cons parameter
    · obtain ⟨rfl, htail⟩ := hfeeds.next hqueue
      let bound : Session μ :=
        { session with
          inputs, environment := session.environment.declare scope parameter (queue.headD .undefined) }
      exact (ih bound htail).cons parameter

end Mirrored

/-- `Mirrored` from all sessions on. -/
def Mirrors (options : WalkOptions) (R : List Value → List Value → Prop) (bound : Session μ → List String)
    (first second : Session μ → Outcome μ α) : Prop :=
  ∀ session queue, R session.inputs queue →
    Mirrored options R queue (bound (session.withInputs queue)) (first session)
      (second (session.withInputs queue))

section Loop

variable {texts : Texts μ} {options lenient : WalkOptions} {R : List Value → List Value → Prop}
  {parts parts' : LoopParts μ} {inside : Nat → Session μ → List String}

/-- Two loops that differ in their bodies, where `inside` lists the parameters in that of the second one. -/
structure LoopsMirror (options : WalkOptions) (R : List Value → List Value → Prop)
    (inside : Nat → Session μ → List String) (parts parts' : LoopParts μ) : Prop where
  condition : parts'.condition = parts.condition
  address : parts'.address = parts.address
  scope : parts'.scope = parts.scope
  body (inner : Nat) : Mirrors options R (inside inner) (parts.body inner) (parts'.body inner)

theorem mirrors_runBody (h : LoopsMirror options R inside parts parts') (budget : Nat) :
    Mirrors options R (bodyNotes parts' inside budget) (runBody parts budget) (runBody parts' budget) := by
  intro session queue hqueue
  let entered := { session with budget, rounds := session.rounds + 1 }.enter parts.scope
  have hbody := h.body session.environment.nextScope entered queue hqueue
  rw [runBody, runBody, bodyNotes, h.scope]
  exact hbody.map id (·.exit session.environment.nextScope) (fun _ _ => rfl) fun _ => rfl

theorem mirrors_lastTest (h : LoopsMirror options R inside parts parts') (done : Nat)
    (marked : List Statement) :
    Mirrors options R (fun _ => []) (lastTest texts parts done marked) (lastTest texts parts' done marked) := by
  intro session queue hqueue
  have hinputs := inputs_test texts session parts.condition parts.scope
  unfold lastTest
  rw [h.condition, h.scope, h.address, test_withInputs]
  rcases htest : session.test texts parts.condition parts.scope with ⟨e | _ | _, after⟩ <;>
    rw [htest] at hinputs <;> rw [← hinputs] at hqueue
  · exact .still (WalkError.isNoInput_of_isOfText (isOfText_test htest)) hqueue
  · exact .still rfl hqueue
  · exact .still rfl hqueue

theorem mirrors_andThen (h : LoopsMirror options R inside parts parts')
    (hrounds : lenient.maxRounds = options.maxRounds) (budget done : Nat) (marked : List Statement)
    {next next' : List Statement → Session μ → Outcome μ (List Statement)}
    {listNext : Session μ → List (List String) × LoopEnd}
    (hnext : ∀ marked, Mirrors options R (fun session => (listNext session).1.flatten) (next marked) (next' marked)) :
    Mirrors options R (fun session => (roundThen texts lenient parts' inside budget listNext session).1.flatten)
      (fun session => (oneRound texts options parts budget done marked session).andThen next)
      fun session => (oneRound texts lenient parts' budget done marked session).andThen next' := by
  intro session queue hqueue
  have hinputs := inputs_test texts session parts.condition parts.scope
  have hmirror {result : Except WalkError Bool} {after : Session μ}
      (htest : session.test texts parts.condition parts.scope = (result, after)) :
      (session.withInputs queue).test texts parts'.condition parts'.scope = (result, after.withInputs queue) := by
    rw [h.condition, h.scope, test_withInputs, htest]
  rcases htest : session.test texts parts.condition parts.scope with ⟨e | _ | _, after⟩ <;>
    rw [htest] at hinputs <;> rw [← hinputs] at hqueue
  · simp only [oneRound, roundThen, htest, hmirror htest]
    exact .still (WalkError.isNoInput_of_isOfText (isOfText_test htest)) hqueue
  · simp only [oneRound, roundThen, htest, hmirror htest]
    exact .still rfl hqueue
  by_cases hcapped : options.maxRounds ≤ after.rounds
  · have hcapped' : lenient.maxRounds ≤ (after.withInputs queue).rounds := hrounds ▸ hcapped
    simp only [oneRound, roundThen, htest, hmirror htest, hcapped, hcapped', if_true]
    rw [h.condition, h.address]
    exact .still rfl hqueue
  have hcapped' : ¬ lenient.maxRounds ≤ (after.withInputs queue).rounds := hrounds ▸ hcapped
  dsimp only
  rw [flatten_roundThen (hmirror htest) hcapped']
  simp only [oneRound, htest, hmirror htest, hcapped, hcapped', if_false]
  refine (mirrors_runBody h budget after queue hqueue).andThen ?_ ?_
  · intro hran
    rcases herror : (runBody parts budget after).error with _ | e
    · rw [Outcome.ranOut, herror] at hran
      cases hran
    · rw [Outcome.ranOut, herror] at hran
      exact hran
  · intro hran hleft hmirror
    rw [hmirror]
    simp only [Outcome.withInputs]
    rcases herror : (runBody parts budget after).error with _ | e
    · exact hnext _ _ _ hleft
    · rw [Outcome.ranOut, herror] at hran
      exact .still hran hleft

variable (texts) in
theorem mirrors_allRounds (h : LoopsMirror options R inside parts parts')
    (hrounds : lenient.maxRounds = options.maxRounds) (budget done : Nat) (marked : List Statement) :
    Mirrors options R (fun session => (roundNotes texts lenient parts' inside budget session).1.flatten)
      (allRounds texts options parts budget done marked)
      (allRounds texts lenient parts' budget done marked) := by
  induction budget generalizing done marked with
  | zero =>
    intro session queue hqueue
    rw [allRounds_zero, allRounds_zero]
    have hlast : ∀ marked, Mirrors options R
        (fun session => (([], lastEnd texts parts' session) : List (List String) × LoopEnd).1.flatten)
        (lastTest texts parts (done + 1) marked) (lastTest texts parts' (done + 1) marked) :=
      mirrors_lastTest h (done + 1)
    exact mirrors_andThen h hrounds 0 done marked hlast session queue hqueue
  | succ budget ih =>
    intro session queue hqueue
    rw [allRounds_succ, allRounds_succ]
    exact mirrors_andThen h hrounds (budget + 1) done marked (ih (done + 1)) session queue hqueue

theorem mirrors_runLoop (h : LoopsMirror options R inside parts parts')
    (hrounds : lenient.maxRounds = options.maxRounds) (children : List Statement) :
    Mirrors options R (loopNotes texts lenient parts' inside (boundObserver lenient))
      (runLoop texts options parts children) (runLoop texts lenient parts' children) := by
  intro session queue hqueue
  have hall := mirrors_allRounds texts h hrounds session.budget 0 children session queue hqueue
  -- Nothing is noted when a loop has ended.
  have hnotes : loopNotes texts lenient parts' inside (boundObserver lenient) (session.withInputs queue) =
      (roundNotes texts lenient parts' inside session.budget (session.withInputs queue)).1.flatten :=
    List.append_nil _
  rw [hnotes]
  exact hall.map id ({ · with budget := session.budget }) (fun _ _ => rfl) fun _ => rfl

end Loop

section Statements

variable {texts : Texts μ} {options lenient : WalkOptions} {R : List Value → List Value → Prop}

theorem mirrors_walkAll {statements : List Statement}
    (h : ∀ s ∈ statements, ∀ scope address,
      Mirrors options R (boundIn texts lenient scope address s) (walk texts options scope address s)
        (walk texts lenient scope address s))
    (scope : Nat) (role : Option Role) (address : Address) (index : Nat) :
    Mirrors options R (notesAll (boundObserver lenient) texts lenient scope role address index statements)
      (walkAll texts options scope role address index statements)
      (walkAll texts lenient scope role address index statements) := by
  induction statements generalizing index with
  | nil =>
    intro session queue hqueue
    rw [walkAll_nil, walkAll_nil, notesAll_nil]
    exact .still rfl hqueue
  | cons s rest ih =>
    obtain ⟨hfirst, hrest⟩ := List.forall_mem_cons.mp h
    intro session queue hqueue
    cases hruns : runs role s with
    | false =>
      rw [walkAll_skip hruns, walkAll_skip hruns, notesAll_skip hruns]
      exact (ih hrest (index + 1) session queue hqueue).map (s :: ·) id (fun _ _ => rfl) fun _ => rfl
    | true =>
      rw [notesAll_run hruns]
      have hwalked := hfirst scope (index :: address) session queue hqueue
      rcases herror : (walk texts options scope (index :: address) s session).error with _ | e
      · refine hwalked.andThen (fun hran => ?_) fun _ hleft hmirror => ?_
        · rw [Outcome.ranOut, herror] at hran
          cases hran
        · have herror' := (congrArg Outcome.error hmirror).trans herror
          rw [walkAll_run hruns herror, walkAll_run hruns herror']
          simp only [hmirror, Outcome.withInputs, herror]
          exact (ih hrest (index + 1) _ _ hleft).map (_ :: ·) id (fun _ _ => rfl) fun _ => rfl
      · rw [walkAll_error hruns herror]
        refine hwalked.andThen (fun hran => ?_) fun hran hleft hmirror => ?_
        · rw [Outcome.ranOut, herror] at hran
          exact hran
        · have herror' := (congrArg Outcome.error hmirror).trans herror
          rw [walkAll_error hruns herror']
          simp only [hmirror, Outcome.withInputs, herror]
          rw [Outcome.ranOut, herror] at hran
          exact .still hran hleft

theorem mirrors_runInside (hfeeds : Feeds options lenient R) (s : Statement)
    (h : ∀ child ∈ s.children, ∀ scope address,
      Mirrors options R (boundIn texts lenient scope address child) (walk texts options scope address child)
        (walk texts lenient scope address child))
    (scope : Nat) (address : Address) :
    Mirrors options R (notesInside (boundObserver lenient) texts lenient scope address s)
      (runInside texts options scope address s) (runInside texts lenient scope address s) := by
  have hchildren := mirrors_walkAll h
  intro session queue hqueue
  unfold runInside notesInside
  cases s.kind with
  | function =>
    have hbound := mirrored_bindParameters hfeeds ((Statement.nameInHead? s.text).getD Session.anonymous) scope
      (Statement.parameterNames s.text) session hqueue
    have hall : (boundObserver lenient).binding (session.withInputs queue) (Statement.parameterNames s.text) =
        Statement.parameterNames s.text := by
      simp only [boundObserver, boundAt, hfeeds.lenient]
      rfl
    dsimp only
    rw [hall]
    refine hbound.andThen ?_ ?_ <;>
      generalize session.bindParameters options _ scope _ = bound <;>
      generalize (session.withInputs queue).bindParameters lenient _ scope _ = bound'
    · obtain ⟨e | _, bound⟩ := bound
      · exact id
      · exact nofun
    · obtain ⟨e | _, bound⟩ := bound <;> obtain ⟨e' | _, bound'⟩ := bound' <;> intro hran hleft hmirror
      · cases hmirror
        exact .still hran hleft
      · cases hmirror
      · cases hmirror
      · cases hmirror
        exact hchildren scope none address 0 bound _ hleft
  | assignment =>
    have hinputs := inputs_assign texts session s.text scope
    dsimp only
    rw [assign_withInputs]
    rcases hassign : session.assign texts s.text scope with ⟨e | _, after⟩ <;>
      rw [hassign] at hinputs <;> rw [← hinputs] at hqueue
    · exact .still (WalkError.isNoInput_of_isOfText (isOfText_assign hassign)) hqueue
    · exact .still rfl hqueue
  | conditional =>
    have hinputs := inputs_test texts session s.text scope
    dsimp only
    rw [test_withInputs]
    rcases htest : session.test texts s.text scope with ⟨e | holds, after⟩ <;>
      rw [htest] at hinputs <;> rw [← hinputs] at hqueue
    · exact .still (WalkError.isNoInput_of_isOfText (isOfText_test htest)) hqueue
    · have hbranch := hchildren after.environment.nextScope
        (some (if holds then Role.consequent else Role.alternate)) address 0 (after.enter scope) queue hqueue
      exact hbranch.map id (·.exit after.environment.nextScope) (fun _ _ => rfl) fun _ => rfl
  | loop =>
    have hparts : LoopsMirror options R (notesWithin (boundObserver lenient) texts lenient (some .body) address s)
        (loopParts texts options scope address s) (loopParts texts lenient scope address s) :=
      ⟨rfl, rfl, rfl, fun inner => hchildren inner (some .body) address 0⟩
    exact mirrors_runLoop hparts hfeeds.maxRounds s.children session queue hqueue
  | returning => exact hchildren scope none address 0 session queue hqueue
  | other => exact hchildren scope none address 0 session queue hqueue

/-- What is true of single steps is true of all walks. -/
theorem mirrors_walk (texts : Texts μ) (hfeeds : Feeds options lenient R) (s : Statement) (scope : Nat)
    (address : Address) :
    Mirrors options R (boundIn texts lenient scope address s) (walk texts options scope address s)
      (walk texts lenient scope address s) := by
  induction s generalizing scope address with
  | node kind text role onPath children ih =>
    intro session queue hqueue
    have hlimit := hfeeds.maxDepth
    by_cases hdepth : options.maxDepth ≤ session.depth
    · have hdepth' : lenient.maxDepth ≤ (session.withInputs queue).depth := hlimit ▸ hdepth
      rw [walk_tooDeep hdepth, walk_tooDeep hdepth', boundIn, notes_tooDeep hdepth', hlimit]
      exact .still rfl hqueue
    · have hdepth' : ¬ lenient.maxDepth ≤ (session.withInputs queue).depth := hlimit ▸ hdepth
      rw [walk_eq hdepth, walk_eq hdepth', boundIn, notes_eq hdepth']
      have hinside := mirrors_runInside hfeeds ⟨kind, text, role, onPath, children⟩ ih scope address
        { session with depth := session.depth + 1 } queue hqueue
      exact hinside.map (Statement.mk kind text role true)
        (fun session => { session with depth := session.depth - 1 }) (fun _ _ => rfl) fun _ => rfl

end Statements

/-! ## Programs -/

/-- The same inputs: a strict walk takes the next one as a lenient walk does, as long as there is one. -/
theorem feeds_same (options : WalkOptions) :
    Feeds { options with strictInputs := true } { options with strictInputs := false } Eq where
  maxDepth := rfl
  maxRounds := rfl
  lenient := rfl
  next := by
    rintro value inputs _ rfl
    exact ⟨rfl, rfl⟩
  runsOut _ h := h.symm
  pads := nofun

/-- Undefined values at the end of the inputs are what a lenient walk takes when there are none left. -/
theorem feeds_padded (options : WalkOptions) :
    Feeds { options with strictInputs := false } { options with strictInputs := false }
      fun inputs queue => ∃ n, queue = inputs ++ List.replicate n .undefined where
  maxDepth := rfl
  maxRounds := rfl
  lenient := rfl
  next := by
    rintro value inputs _ ⟨n, rfl⟩
    exact ⟨rfl, n, rfl⟩
  runsOut := nofun
  pads := by
    rintro _ _ ⟨_ | n, rfl⟩
    · exact ⟨rfl, 0, rfl⟩
    · exact ⟨rfl, n, rfl⟩

theorem annotate_eq_of_withInputs {options options' : WalkOptions} {inputs inputs' queue : List Value}
    {tree : Statement}
    (h : walkTree Texts.fresh options' tree (Session.start options' inputs' ()) =
      (walkTree Texts.fresh options tree (Session.start options inputs ())).withInputs queue) :
    annotate options' inputs' tree = annotate options inputs tree := by
  rw [annotate_eq_fresh, annotate_eq_fresh, conclude, conclude, h]
  rfl

theorem ranOut_iff {options : WalkOptions} {inputs : List Value} {tree : Statement} :
    (walkTree Texts.fresh options tree (Session.start options inputs ())).ranOut = true ↔
      ∃ function parameter, (annotate options inputs tree).2 = .error (.noInput function parameter) := by
  rw [annotate_eq_fresh, conclude, Outcome.ranOut]
  rcases (walkTree Texts.fresh options tree (Session.start options inputs ())).error with _ | e
  · exact ⟨by rintro ⟨⟩, by rintro ⟨_, _, ⟨⟩⟩⟩
  · cases e with
    | noInput function parameter => exact ⟨fun _ => ⟨function, parameter, rfl⟩, fun _ => rfl⟩
    | element | malformed | notAssignable | tooDeep => exact ⟨by rintro ⟨⟩, by rintro ⟨_, _, ⟨⟩⟩⟩

/-- How strict and lenient walks treat the inputs of a program. Undefined values at the end of the inputs make
no difference to a lenient walk. If the strict walk does not run out of inputs, the lenient walk on the same
inputs has the same result and the same marks. It has them as well if the lenient walk gives a value to no
more parameters than there are inputs. And a lenient walk never runs out of inputs. -/
theorem annotate_inputs (options : WalkOptions) (inputs : List Value) (tree : Statement) :
    let strict := { options with strictInputs := true }
    let lenient := { options with strictInputs := false }
    (∀ n, annotate lenient (inputs ++ List.replicate n .undefined) tree = annotate lenient inputs tree) ∧
    ((∀ function parameter, (annotate strict inputs tree).2 ≠ .error (.noInput function parameter)) →
      annotate lenient inputs tree = annotate strict inputs tree) ∧
    ((boundParameters lenient inputs tree).length ≤ inputs.length →
      annotate strict inputs tree = annotate lenient inputs tree) ∧
    ∀ function parameter, (annotate lenient inputs tree).2 ≠ .error (.noInput function parameter) := by
  intro strict lenient
  let start : Session Unit := { Session.start lenient inputs () with trees := 1 }
  have hpadded n := mirrors_walk Texts.fresh (feeds_padded options) tree 0 [0] start
    (inputs ++ List.replicate n .undefined) ⟨n, rfl⟩
  have hsame := mirrors_walk Texts.fresh (feeds_same options) tree 0 [0] start inputs rfl
  refine ⟨fun n => ?_, fun hnever => ?_, fun hfew => ?_, fun function parameter herror => ?_⟩
  · cases hpadded n with
    | ranOut _ hstrict _ => cases hstrict
    | same _ _ hmirror => exact annotate_eq_of_withInputs hmirror
  · cases hsame with
    | ranOut hran _ _ =>
      obtain ⟨function, parameter, herror⟩ := ranOut_iff.mp hran
      exact absurd herror (hnever function parameter)
    | same _ _ hmirror => exact annotate_eq_of_withInputs hmirror
  · cases hsame with
    | ranOut _ _ hmore => exact absurd hmore (Nat.not_lt.mpr hfew)
    | same _ _ hmirror => exact (annotate_eq_of_withInputs hmirror).symm
  · cases hpadded 0 with
    | ranOut _ hstrict _ => cases hstrict
    | same hran _ _ =>
      have hran' := ranOut_iff.mpr ⟨function, parameter, herror⟩
      exact absurd (hran.symm.trans hran') Bool.false_ne_true

/-- A function in the body of a loop takes an input in each of two rounds. -/
theorem annotate_inputs_in_loop :
    let tree := Statement.program [.assignment "var more = true",
      .whileLoop "more" [.function "function f(go)" [], .assignment "more = go"]]
    let strict : WalkOptions := { strictInputs := true }
    let inputs := [.boolean true, .boolean false]
    boundParameters {} inputs tree = ["go", "go"] ∧ annotate strict inputs tree = annotate {} inputs tree ∧
      (∀ function parameter, (annotate strict inputs tree).2 ≠ .error (.noInput function parameter)) ∧
      annotate {} (inputs ++ [.undefined]) tree = annotate strict inputs tree := by
  intro tree strict inputs
  have hbound : boundParameters {} inputs tree = ["go", "go"] := by decide +kernel
  have hends : (annotate strict inputs tree).2.toOption.isSome = true := by
    rw [annotate_eq_fresh]
    decide +kernel
  have hnever : ∀ function parameter,
      (annotate strict inputs tree).2 ≠ .error (.noInput function parameter) := by
    intro function parameter herror
    rw [herror] at hends
    cases hends
  obtain ⟨hpadded, hstrict, hlenient, -⟩ := annotate_inputs {} inputs tree
  refine ⟨hbound, hlenient ?_, hnever, (hpadded 1).trans (hstrict hnever)⟩
  rw [hbound]
  exact Nat.le_refl 2

end Path

end FlowPath
