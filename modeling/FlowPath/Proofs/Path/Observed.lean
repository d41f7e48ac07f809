import FlowPath.Proofs.Path.Walk

/-!
# Walks under observation

An observer notes things that happen during a walk: that a function is about to give values to its parameters, that
a scope is about to be closed, that a loop has ended. `observe` walks as `walk` does and gives what an observer notes
along with the outcome. The outcome has nothing to do with the observer (`observe_outcome`).

What is noted can be told from the sessions of the walk: `notes_eq` says so of a statement, `notesAll_skip` and
`notesAll_run` of a sequence. In a loop the notes are kept for each round by itself (`roundNotes`), since a loop that
has ended is noted with the number of its rounds.
-/

namespace FlowPath

variable {μ ε : Type}

/-- How the run of a loop ends. -/
inductive LoopEnd where
  /-- The condition does not hold. -/
  | ended
  /-- The condition still holds after the last round that the budget allows. -/
  | spent
  /-- The condition holds, but all loops together have gone round as often as they may. -/
  | capped
  /-- The condition cannot be tested, or the body fails. -/
  | failed
deriving DecidableEq, Repr

/-- A run of the loop statement at an address. -/
structure LoopRun where
  address : Address
  condition : String
  /-- How often the body ran. -/
  bodies : Nat
  ending : LoopEnd
deriving DecidableEq, Repr

/-- What is noted of a walk; nothing, unless it is said. -/
structure Observer (μ ε : Type) where
  /-- The parameters of a function are about to take the inputs of the session. -/
  binding (session : Session μ) (parameters : List String) : List ε := []
  /-- A scope is about to be closed. -/
  closing (scope : Nat) (session : Session μ) : List ε := []
  /-- A loop has ended. -/
  ending (run : LoopRun) : List ε := []

namespace Path

open Statement (Role)

/-! ## Rounds -/

section Rounds

variable (texts : Texts μ) (options : WalkOptions) (parts : LoopParts μ) (inside : Nat → Session μ → List ε)

/-- The notes in the body of a round, where `inside` gives those in a scope. -/
def bodyNotes (budget : Nat) (session : Session μ) : List ε :=
  inside session.environment.nextScope
    ({ session with budget, rounds := session.rounds + 1 }.enter parts.scope)

/-- How a loop ends with the test after its last round. -/
def lastEnd (session : Session μ) : LoopEnd :=
  match (session.test texts parts.condition parts.scope).1 with
  | .error _ => .failed
  | .ok false => .ended
  | .ok true => .spent

/-- The notes in a round and in the rounds after it, for each round by itself, and how the loop ends. -/
def roundThen (budget : Nat) (next : Session μ → List (List ε) × LoopEnd) (session : Session μ) :
    List (List ε) × LoopEnd :=
  match session.test texts parts.condition parts.scope with
  | (.error _, _) => ([], .failed)
  | (.ok false, _) => ([], .ended)
  | (.ok true, session) =>
    if options.maxRounds ≤ session.rounds then ([], .capped)
    else
      let body := bodyNotes parts inside budget session
      let outcome := runBody parts budget session
      match outcome.error with
      | some _ => ([body], .failed)
      | none =>
        let (bodies, ending) := next outcome.session
        (body :: bodies, ending)

/-- The notes in the rounds of a loop, for each round by itself, and how the loop ends. -/
def roundNotes : Nat → Session μ → List (List ε) × LoopEnd
  | 0 => roundThen texts options parts inside 0 fun session => ([], lastEnd texts parts session)
  | budget + 1 => roundThen texts options parts inside (budget + 1) (roundNotes budget)

/-- A loop: the notes in its bodies, and then the one that it has ended. -/
def loopNotes (observer : Observer μ ε) (session : Session μ) : List ε :=
  let (bodies, ending) := roundNotes texts options parts inside session.budget session
  bodies.flatten ++
    observer.ending { address := parts.address, condition := parts.condition, bodies := bodies.length, ending }

variable {texts options parts inside}

theorem forall_mem_roundThen {P : List ε → Prop} {budget : Nat} {session : Session μ}
    {next : Session μ → List (List ε) × LoopEnd}
    (hbody : ∀ tested, session.test texts parts.condition parts.scope = (.ok true, tested) →
      P (bodyNotes parts inside budget tested) ∧ ∀ body ∈ (next (runBody parts budget tested).session).1, P body) :
    ∀ body ∈ (roundThen texts options parts inside budget next session).1, P body := by
  unfold roundThen
  split
  · exact List.forall_mem_nil _
  · exact List.forall_mem_nil _
  · rename_i tested htest
    obtain ⟨hfirst, hothers⟩ := hbody tested htest
    split
    · exact List.forall_mem_nil _
    · dsimp only
      split
      · exact List.forall_mem_singleton.mpr hfirst
      · exact List.forall_mem_cons.mpr ⟨hfirst, hothers⟩

/-- The notes of a round come before those of the rounds after it, if there are any. -/
theorem flatten_roundThen {budget : Nat} {session tested : Session μ} {next : Session μ → List (List ε) × LoopEnd}
    (htest : session.test texts parts.condition parts.scope = (.ok true, tested))
    (hrounds : ¬ options.maxRounds ≤ tested.rounds) :
    (roundThen texts options parts inside budget next session).1.flatten =
      bodyNotes parts inside budget tested ++
        match (runBody parts budget tested).error with
        | some _ => []
        | none => (next (runBody parts budget tested).session).1.flatten := by
  simp only [roundThen, htest, hrounds, if_false]
  cases (runBody parts budget tested).error <;> rfl

/-- What holds of the notes in every round, from an invariant that every round keeps. -/
theorem forall_mem_roundNotes {I : Session μ → Prop} {P : List ε → Prop}
    (hround : ∀ budget session tested, I session →
      session.test texts parts.condition parts.scope = (.ok true, tested) →
      P (bodyNotes parts inside budget tested) ∧ I (runBody parts budget tested).session)
    (budget : Nat) {session : Session μ} (hI : I session) :
    ∀ body ∈ (roundNotes texts options parts inside budget session).1, P body := by
  induction budget generalizing session with
  | zero =>
    exact forall_mem_roundThen fun tested htest => ⟨(hround 0 session tested hI htest).1, List.forall_mem_nil _⟩
  | succ budget ih =>
    refine forall_mem_roundThen fun tested htest => ?_
    obtain ⟨hbody, hnext⟩ := hround (budget + 1) session tested hI htest
    exact ⟨hbody, ih hnext⟩

end Rounds

/-! ## Statements -/

section Statements

variable (observer : Observer μ ε) (texts : Texts μ) (options : WalkOptions)

mutual

/-- Walks a statement in a scope, and gives what is noted. -/
def observe (scope : Nat) (address : Address) : Statement → Session μ → Outcome μ Statement × List ε
  | ⟨kind, text, role, onPath, children⟩, session =>
    if options.maxDepth ≤ session.depth then
      ({ value := ⟨kind, text, role, onPath, children⟩
         session
         error := some (.tooDeep options.maxDepth) }, [])
    else
      let session := { session with depth := session.depth + 1 }
      let (inner, notes) : Outcome μ (List Statement) × List ε :=
        match kind with
        | .function =>
          let name := (Statement.nameInHead? text).getD Session.anonymous
          let parameters := Statement.parameterNames text
          let (inner, notes) : Outcome μ (List Statement) × List ε :=
            match session.bindParameters options name scope parameters with
            | (.error e, session) => ({ value := children, session, error := some e }, [])
            | (.ok (), session) => observeAll scope none address 0 children session
          (inner, observer.binding session parameters ++ notes)
        | .assignment =>
          match session.assign texts text scope with
          | (.error e, session) => ({ value := children, session, error := some e }, [])
          | (.ok (), session) => ({ value := children, session, error := none }, [])
        | .conditional =>
          match session.test texts text scope with
          | (.error e, session) => ({ value := children, session, error := some e }, [])
          | (.ok holds, session) =>
            let taken := if holds then Role.consequent else Role.alternate
            let inside := session.environment.nextScope
            let (outcome, notes) := observeAll inside (some taken) address 0 children (session.enter scope)
            ({ outcome with session := outcome.session.exit inside },
              observer.closing inside outcome.session ++ notes)
        | .loop =>
          let body inside session := observeAll inside (some .body) address 0 children session
          let parts : LoopParts μ :=
            { condition := text
              address
              scope
              body := fun inside session => (body inside session).1 }
          let inside inner session :=
            observer.closing inner (body inner session).1.session ++ (body inner session).2
          (runLoop texts options parts children session, loopNotes texts options parts inside observer session)
        | .returning => observeAll scope none address 0 children session
        | .other => observeAll scope none address 0 children session
      ({ value := ⟨kind, text, role, true, inner.value⟩
         session := { inner.session with depth := inner.session.depth - 1 }
         error := inner.error }, notes)

/-- Walks the statements of a sequence that run, up to the first error, and gives what is noted. -/
def observeAll (scope : Nat) (role : Option Role) (address : Address) :
    Nat → List Statement → Session μ → Outcome μ (List Statement) × List ε
  | _, [], session => ({ value := [], session, error := none }, [])
  | index, s :: rest, session =>
    if runs role s then
      let (first, notes) := observe scope (index :: address) s session
      match first.error with
      | some e => ({ value := first.value :: rest, session := first.session, error := some e }, notes)
      | none =>
        let (others, more) := observeAll scope role address (index + 1) rest first.session
        ({ others with value := first.value :: others.value }, notes ++ more)
    else
      let (others, notes) := observeAll scope role address (index + 1) rest session
      ({ others with value := s :: others.value }, notes)

end

/-- What is noted in the walk of a statement. -/
def notes (scope : Nat) (address : Address) (s : Statement) (session : Session μ) : List ε :=
  (observe observer texts options scope address s session).2

/-- What is noted in the walk of a sequence. -/
def notesAll (scope : Nat) (role : Option Role) (address : Address) (index : Nat) (statements : List Statement)
    (session : Session μ) : List ε :=
  (observeAll observer texts options scope role address index statements session).2

/-- What is noted in a scope that is opened for the children of a statement, and when it is closed. -/
def notesWithin (role : Option Role) (address : Address) (s : Statement) (inner : Nat) (session : Session μ) :
    List ε :=
  observer.closing inner (walkAll texts options inner role address 0 s.children session).session ++
    notesAll observer texts options inner role address 0 s.children session

/-- What is noted in what `runInside` does. -/
def notesInside (scope : Nat) (address : Address) (s : Statement) (session : Session μ) : List ε :=
  match s.kind with
  | .function =>
    let name := (Statement.nameInHead? s.text).getD Session.anonymous
    let parameters := Statement.parameterNames s.text
    observer.binding session parameters ++
      match session.bindParameters options name scope parameters with
      | (.error _, _) => []
      | (.ok (), session) => notesAll observer texts options scope none address 0 s.children session
  | .assignment => []
  | .conditional =>
    match session.test texts s.text scope with
    | (.error _, _) => []
    | (.ok holds, session) =>
      let taken := if holds then Role.consequent else Role.alternate
      notesWithin observer texts options (some taken) address s session.environment.nextScope (session.enter scope)
  | .loop =>
    loopNotes texts options (loopParts texts options scope address s)
      (notesWithin observer texts options (some .body) address s) observer session
  | .returning | .other => notesAll observer texts options scope none address 0 s.children session

end Statements

section Statements

variable {observer : Observer μ ε} {texts : Texts μ} {options : WalkOptions}

theorem observeAll_outcome_of {statements : List Statement}
    (h : ∀ s ∈ statements, ∀ scope address session,
      (observe observer texts options scope address s session).1 = walk texts options scope address s session)
    (scope : Nat) (role : Option Role) (address : Address) (index : Nat) (session : Session μ) :
    (observeAll observer texts options scope role address index statements session).1 =
      walkAll texts options scope role address index statements session := by
  induction statements generalizing index session with
  | nil => rw [observeAll, walkAll_nil]
  | cons s rest ih =>
    obtain ⟨hfirst, hrest⟩ := List.forall_mem_cons.mp h
    rw [observeAll]
    cases hruns : runs role s with
    | false =>
      rw [walkAll_skip hruns, ← ih hrest (index + 1) session]
      rfl
    | true =>
      have hwalked := hfirst scope (index :: address) session
      rw [if_pos rfl]
      cases herror : (walk texts options scope (index :: address) s session).error with
      | some e =>
        rw [walkAll_error hruns herror]
        simp only [hwalked, herror]
      | none =>
        rw [walkAll_run hruns herror]
        simp only [hwalked, herror]
        rw [← ih hrest (index + 1)]

/-- Statements are walked step by step as `walk` does it, if their children are. -/
theorem observe_eq_of {s : Statement}
    (hchildren : ∀ scope role address index session,
      (observeAll observer texts options scope role address index s.children session).1 =
        walkAll texts options scope role address index s.children session)
    (scope : Nat) (address : Address) {session : Session μ} (h : ¬ options.maxDepth ≤ session.depth) :
    observe observer texts options scope address s session =
      let counted := { session with depth := session.depth + 1 }
      let inner := runInside texts options scope address s counted
      ({ value := { s with onPath := true, children := inner.value }
         session := { inner.session with depth := inner.session.depth - 1 }
         error := inner.error }, notesInside observer texts options scope address s counted) := by
  obtain ⟨kind, text, role, onPath, children⟩ := s
  rw [observe, if_neg h]
  generalize { session with depth := session.depth + 1 } = counted
  cases kind with
  | function =>
    simp only [runInside, notesInside]
    generalize counted.bindParameters options _ scope _ = bound
    obtain ⟨_ | _, bound⟩ := bound
    · rfl
    · simp only [← hchildren]
      rfl
  | assignment =>
    simp only [runInside, notesInside]
    generalize counted.assign texts text scope = assigned
    obtain ⟨_ | _, assigned⟩ := assigned <;> rfl
  | conditional =>
    simp only [runInside, notesInside, notesWithin]
    generalize counted.test texts text scope = tested
    obtain ⟨_ | holds, tested⟩ := tested
    · rfl
    · simp only [← hchildren]
      rfl
  | loop =>
    have hparts : loopParts texts options scope address ⟨.loop, text, role, onPath, children⟩ =
        { condition := text
          address
          scope
          body := fun inside session =>
            (observeAll observer texts options inside (some .body) address 0 children session).1 } := by
      simp only [loopParts, ← hchildren]
    have hwithin : notesWithin observer texts options (some .body) address ⟨.loop, text, role, onPath, children⟩ =
        fun inner session =>
          let body := observeAll observer texts options inner (some .body) address 0 children session
          observer.closing inner body.1.session ++ body.2 := by
      funext inner session
      simp only [notesWithin, ← hchildren]
      rfl
    simp only [runInside, notesInside, hparts, hwithin]
  | returning | other =>
    simp only [runInside, notesInside, ← hchildren]
    rfl

/-- The outcome is that of the walk, whatever is noted. -/
theorem observe_outcome (observer : Observer μ ε) (texts : Texts μ) (options : WalkOptions) (scope : Nat)
    (address : Address) (s : Statement) (session : Session μ) :
    (observe observer texts options scope address s session).1 = walk texts options scope address s session := by
  induction s generalizing scope address session with
  | node kind text role onPath children ih =>
    by_cases hdepth : options.maxDepth ≤ session.depth
    · rw [walk_tooDeep hdepth, observe, if_pos hdepth]
    · rw [walk_eq hdepth, observe_eq_of (observeAll_outcome_of ih) scope address hdepth]

theorem observeAll_outcome (observer : Observer μ ε) (texts : Texts μ) (options : WalkOptions) (scope : Nat)
    (role : Option Role) (address : Address) (index : Nat) (statements : List Statement) (session : Session μ) :
    (observeAll observer texts options scope role address index statements session).1 =
      walkAll texts options scope role address index statements session :=
  observeAll_outcome_of (fun s _ scope address => observe_outcome observer texts options scope address s) scope role
    address index session

/-! ## Where notes come from -/

variable {scope : Nat} {address : Address} {s : Statement} {session : Session μ}

theorem notes_tooDeep (h : options.maxDepth ≤ session.depth) :
    notes observer texts options scope address s session = [] := by
  obtain ⟨kind, text, role, onPath, children⟩ := s
  rw [notes, observe, if_pos h]

theorem notes_eq (h : ¬ options.maxDepth ≤ session.depth) :
    notes observer texts options scope address s session =
      notesInside observer texts options scope address s { session with depth := session.depth + 1 } := by
  rw [notes, observe_eq_of (fun scope role address index =>
    observeAll_outcome observer texts options scope role address index s.children) scope address h]

section Sequence

variable {role : Option Role} {index : Nat} {rest : List Statement}

theorem notesAll_nil : notesAll observer texts options scope role address index [] session = [] := by
  rw [notesAll, observeAll]

theorem notesAll_skip (h : runs role s = false) :
    notesAll observer texts options scope role address index (s :: rest) session =
      notesAll observer texts options scope role address (index + 1) rest session := by
  rw [notesAll, observeAll, h]
  rfl

theorem notesAll_run (h : runs role s = true) :
    notesAll observer texts options scope role address index (s :: rest) session =
      notes observer texts options scope (index :: address) s session ++
        let first := walk texts options scope (index :: address) s session
        match first.error with
        | some _ => []
        | none => notesAll observer texts options scope role address (index + 1) rest first.session := by
  have hwalked := observe_outcome observer texts options scope (index :: address) s session
  rw [notesAll, observeAll, if_pos h, notes]
  simp only [hwalked]
  cases (walk texts options scope (index :: address) s session).error with
  | some e => exact (List.append_nil _).symm
  | none => rfl

end Sequence

end Statements

end Path

end FlowPath
