import FlowPath.Proofs.Path.Walk

/-!
# Two walks in lockstep

What a walk does goes neither by the marks of the tree nor by the memory of parsed texts, as long as
the memory gives the right answers. `lockstep_walk` says so for two walks at once, through two trees
that are alike and with two memories that agree: they end with the same error and in the same session
up to the memory, and they add the same marks.
-/

namespace FlowPath

open Statement (Role joinAll unmarkedAll)

variable {μ ν : Type}

/-- The session with another memory. -/
def Session.withMemory (session : Session μ) (memory : ν) : Session ν :=
  { environment := session.environment
    inputs := session.inputs
    budget := session.budget
    rounds := session.rounds
    depth := session.depth
    trees := session.trees
    truncated := session.truncated
    memory }

@[simp] theorem Session.withMemory_rounds (session : Session μ) (memory : ν) :
    (session.withMemory memory).rounds = session.rounds := rfl

/-- The outcome with another memory. -/
def Outcome.withMemory {α : Type} (outcome : Outcome μ α) (memory : ν) : Outcome ν α :=
  { value := outcome.value, session := outcome.session.withMemory memory, error := outcome.error }

/-- Under memories that agree texts are parsed in the same way, and the memories go on to agree. -/
structure Texts.Agree (J : μ → ν → Prop) (texts : Texts μ) (texts' : Texts ν) : Prop where
  condition {m : μ} {n : ν} (h : J m n) (text : String) :
    (texts.condition text m).1 = (texts'.condition text n).1 ∧
      J (texts.condition text m).2 (texts'.condition text n).2
  assignment {m : μ} {n : ν} (h : J m n) (text : String) :
    (texts.assignment text m).1 = (texts'.assignment text n).1 ∧
      J (texts.assignment text m).2 (texts'.assignment text n).2

namespace Path

variable {J : μ → ν → Prop} {texts : Texts μ} {texts' : Texts ν} {session : Session μ} {memory : ν}

theorem test_withMemory (h : texts.Agree J texts') (hJ : J session.memory memory) (condition : String)
    (scope : Nat) :
    ∃ n, J (session.test texts condition scope).2.memory n ∧
      (session.withMemory memory).test texts' condition scope =
        ((session.test texts condition scope).1, (session.test texts condition scope).2.withMemory n) := by
  obtain ⟨hresult, hmemory⟩ := h.condition hJ condition
  unfold Session.test
  rcases hc : texts.condition condition session.memory with ⟨result, m⟩
  rcases hc' : texts'.condition condition memory with ⟨result', n⟩
  rw [hc, hc'] at hresult hmemory
  obtain rfl : result = result' := hresult
  refine ⟨n, ?_, ?_⟩ <;> cases result <;> simp only [Session.withMemory, hc']
  · exact hmemory
  · exact hmemory

theorem assign_withMemory (h : texts.Agree J texts') (hJ : J session.memory memory) (text : String)
    (scope : Nat) :
    ∃ n, J (session.assign texts text scope).2.memory n ∧
      (session.withMemory memory).assign texts' text scope =
        ((session.assign texts text scope).1, (session.assign texts text scope).2.withMemory n) := by
  obtain ⟨hresult, hmemory⟩ := h.assignment hJ text
  unfold Session.assign
  rcases hc : texts.assignment text session.memory with ⟨result, m⟩
  rcases hc' : texts'.assignment text memory with ⟨result', n⟩
  rw [hc, hc'] at hresult hmemory
  obtain rfl : result = result' := hresult
  refine ⟨n, ?_, ?_⟩ <;> cases result <;> simp only [Session.withMemory, hc']
  · exact hmemory
  · split <;> exact hmemory
  · split <;> rfl

theorem bindParameters_withMemory (options : WalkOptions) (function : String) (scope : Nat)
    (parameters : List String) (session : Session μ) (memory : ν) :
    (session.bindParameters options function scope parameters).2.memory = session.memory ∧
      (session.withMemory memory).bindParameters options function scope parameters =
        ((session.bindParameters options function scope parameters).1,
          (session.bindParameters options function scope parameters).2.withMemory memory) := by
  induction parameters generalizing session with
  | nil => exact ⟨rfl, rfl⟩
  | cons parameter rest ih =>
    rcases hi : session.inputs with _ | ⟨value, inputs⟩
    · cases hs : options.strictInputs
      · have h := ih { session with
          environment := session.environment.declare scope parameter .undefined }
        simpa [Session.bindParameters, Session.withMemory, hi, hs] using h
      · simp [Session.bindParameters, Session.withMemory, hi, hs]
    · have h := ih { session with
        inputs, environment := session.environment.declare scope parameter value }
      simpa [Session.bindParameters, Session.withMemory, hi] using h

/-- The outcomes of two walks through the trees of `c` and `c'`: the same marks were added, and the
sessions differ in their memories alone. -/
def Agrees (J : μ → ν → Prop) (c c' : List Statement) (out : Outcome μ (List Statement))
    (out' : Outcome ν (List Statement)) : Prop :=
  ∃ n added, J out.session.memory n ∧ unmarkedAll c = unmarkedAll added ∧
    out.value = joinAll c added ∧
    out' = { value := joinAll c' added, session := out.session.withMemory n, error := out.error }

/-- `Agrees` for walks through a single tree. -/
def AgreesOne (J : μ → ν → Prop) (s s' : Statement) (out : Outcome μ Statement)
    (out' : Outcome ν Statement) : Prop :=
  ∃ n added, J out.session.memory n ∧ s.unmarked = added.unmarked ∧ out.value = s.join added ∧
    out' = { value := s'.join added, session := out.session.withMemory n, error := out.error }

/-- An outcome that leaves the trees as they are. -/
theorem agrees_unchanged {c c' : List Statement} (hc : unmarkedAll c' = unmarkedAll c)
    {session : Session μ} {n : ν} (hJ : J session.memory n) (error : Option WalkError) :
    Agrees J c c' { value := c, session, error } { value := c', session := session.withMemory n, error } :=
  ⟨n, unmarkedAll c, hJ, by simp, by simp, by simp [← hc]⟩

/-! ## Loops -/

section Loop

variable {c c' : List Statement} {parts : LoopParts μ} {parts' : LoopParts ν}

/-- Two loops whose bodies agree. -/
structure LoopsAgree (J : μ → ν → Prop) (c c' : List Statement) (parts : LoopParts μ)
    (parts' : LoopParts ν) : Prop where
  condition : parts'.condition = parts.condition
  address : parts'.address = parts.address
  scope : parts'.scope = parts.scope
  body (inside : Nat) (session : Session μ) {n : ν} (h : J session.memory n) :
    Agrees J c c' (parts.body inside session) (parts'.body inside (session.withMemory n))

theorem agrees_runBody (h : LoopsAgree J c c' parts parts') (budget : Nat)
    (hJ : J session.memory memory) :
    Agrees J c c' (runBody parts budget session) (runBody parts' budget (session.withMemory memory)) := by
  let entered := { session with budget, rounds := session.rounds + 1 }.enter parts.scope
  obtain ⟨n, added, hn, hadded, hvalue, hout⟩ := h.body session.environment.nextScope entered hJ
  refine ⟨n, added, hn, hadded, hvalue, ?_⟩
  rw [runBody, h.scope]
  exact congrArg (fun out : Outcome ν (List Statement) =>
    { out with session := out.session.exit session.environment.nextScope }) hout

theorem agrees_lastTest (ht : texts.Agree J texts') (h : LoopsAgree J c c' parts parts') (done : Nat)
    {marked : List Statement} (hmarked : unmarkedAll c = unmarkedAll marked)
    (hJ : J session.memory memory) :
    Agrees J c c' (lastTest texts parts done (joinAll c marked) session)
      (lastTest texts' parts' done (joinAll c' marked) (session.withMemory memory)) := by
  obtain ⟨n, hn, htest⟩ := test_withMemory ht hJ parts.condition parts.scope
  unfold lastTest
  rw [h.condition, h.scope, h.address, htest]
  generalize session.test texts parts.condition parts.scope = tested at hn
  obtain ⟨_ | _ | _, session₁⟩ := tested <;> exact ⟨n, marked, hn, hmarked, rfl, rfl⟩

/-- The results of two rounds agree. -/
def RoundsAgree (J : μ → ν → Prop) (c c' : List Statement) : RoundResult μ → RoundResult ν → Prop
  | .stop out, .stop out' => Agrees J c c' out out'
  | .next marked session, .next marked' session' =>
    Agrees J c c' ⟨marked, session, none⟩ ⟨marked', session', none⟩
  | _, _ => False

theorem roundsAgree_oneRound (ht : texts.Agree J texts') (h : LoopsAgree J c c' parts parts')
    (hc : unmarkedAll c' = unmarkedAll c) (options : WalkOptions) (budget done : Nat) {marked : List Statement}
    (hmarked : unmarkedAll c = unmarkedAll marked) (hJ : J session.memory memory) :
    RoundsAgree J c c' (oneRound texts options parts budget done (joinAll c marked) session)
      (oneRound texts' options parts' budget done (joinAll c' marked) (session.withMemory memory)) := by
  obtain ⟨n, hn, htest⟩ := test_withMemory ht hJ parts.condition parts.scope
  unfold oneRound
  rw [h.condition, h.scope, h.address, htest]
  generalize session.test texts parts.condition parts.scope = tested at hn
  obtain ⟨_ | _ | _, session₁⟩ := tested
  · exact ⟨n, marked, hn, hmarked, rfl, rfl⟩
  · exact ⟨n, marked, hn, hmarked, rfl, rfl⟩
  replace hn : J session₁.memory n := hn
  obtain ⟨n', added, hn', hadded, hvalue, hout⟩ := agrees_runBody h budget hn
  -- The marks of this round come on top of those of the rounds before, on both sides.
  have hmerge {c : List Statement} (hc : unmarkedAll c = unmarkedAll marked) :
      joinAll (joinAll c marked) (joinAll c added) = joinAll c (joinAll marked added) :=
    Statement.joinAll_joinAll_joinAll hc (hmarked.symm.trans hadded)
  have hsame : unmarkedAll c = unmarkedAll (joinAll marked added) := by
    rw [Statement.unmarkedAll_joinAll, hmarked]
  by_cases hrounds : options.maxRounds ≤ session₁.rounds
  · simp only [Session.withMemory_rounds, hrounds, if_true]
    exact ⟨n, marked, hn, hmarked, rfl, rfl⟩
  · simp only [Session.withMemory_rounds, hrounds, if_false, hout, hvalue, hmerge hmarked,
      hmerge (hc.trans hmarked)]
    rcases (runBody parts budget session₁).error with _ | e
    · exact ⟨n', joinAll marked added, hn', hsame, rfl, rfl⟩
    · exact ⟨n', joinAll marked added, hn', hsame, rfl, rfl⟩

theorem agrees_andThen {result : RoundResult μ} {result' : RoundResult ν}
    {next : List Statement → Session μ → Outcome μ (List Statement)}
    {next' : List Statement → Session ν → Outcome ν (List Statement)}
    (hround : RoundsAgree J c c' result result')
    (hnext : ∀ marked session n, unmarkedAll c = unmarkedAll marked → J session.memory n →
      Agrees J c c' (next (joinAll c marked) session)
        (next' (joinAll c' marked) (session.withMemory n))) :
    Agrees J c c' (result.andThen next) (result'.andThen next') := by
  rcases result with out | ⟨marked, session⟩ <;> rcases result' with out' | ⟨marked', session'⟩
  · exact hround
  · exact hround.elim
  · exact hround.elim
  · obtain ⟨n, added, hn, hadded, hvalue, hout⟩ := hround
    cases hvalue
    cases hout
    exact hnext added session n hadded hn

theorem agrees_allRounds (ht : texts.Agree J texts') (h : LoopsAgree J c c' parts parts')
    (hc : unmarkedAll c' = unmarkedAll c) (options : WalkOptions) (budget done : Nat)
    {marked : List Statement} (hmarked : unmarkedAll c = unmarkedAll marked)
    (hJ : J session.memory memory) :
    Agrees J c c' (allRounds texts options parts budget done (joinAll c marked) session)
      (allRounds texts' options parts' budget done (joinAll c' marked) (session.withMemory memory)) := by
  induction budget generalizing done marked session memory with
  | zero =>
    rw [allRounds_zero, allRounds_zero]
    exact agrees_andThen (roundsAgree_oneRound ht h hc options 0 done hmarked hJ)
      fun _ _ _ hmarked hJ => agrees_lastTest ht h (done + 1) hmarked hJ
  | succ budget ih =>
    rw [allRounds_succ, allRounds_succ]
    exact agrees_andThen (roundsAgree_oneRound ht h hc options (budget + 1) done hmarked hJ)
      fun _ _ _ hmarked hJ => ih (done + 1) hmarked hJ

theorem agrees_runLoop (ht : texts.Agree J texts') (h : LoopsAgree J c c' parts parts')
    (hc : unmarkedAll c' = unmarkedAll c) (options : WalkOptions) (hJ : J session.memory memory) :
    Agrees J c c' (runLoop texts options parts c session)
      (runLoop texts' options parts' c' (session.withMemory memory)) := by
  have hrounds := agrees_allRounds ht h hc options session.budget 0
    (Statement.unmarkedAll_unmarkedAll c).symm hJ
  rw [Statement.joinAll_unmarkedAll, ← hc, Statement.joinAll_unmarkedAll] at hrounds
  obtain ⟨n, added, hn, hadded, hvalue, hout⟩ := hrounds
  refine ⟨n, added, hn, hadded, hvalue, ?_⟩
  exact congrArg (fun out : Outcome ν (List Statement) =>
    { out with session := { out.session with budget := session.budget } }) hout

end Loop

/-! ## Statements -/

section Statement

variable {options : WalkOptions}

/-- The walks through two trees agree, in every scope and wherever the trees stand. -/
def Lockstep (J : μ → ν → Prop) (texts : Texts μ) (texts' : Texts ν) (options : WalkOptions)
    (s s' : Statement) : Prop :=
  ∀ scope address (session : Session μ) memory, J session.memory memory →
    AgreesOne J s s' (walk texts options scope address s session)
      (walk texts' options scope address s' (session.withMemory memory))

theorem agrees_walkAll {l l' : List Statement}
    (h : List.Forall₂ (fun s s' => s.unmarked = s'.unmarked ∧ Lockstep J texts texts' options s s') l l')
    (scope : Nat) (role : Option Role) (address : Address) (index : Nat)
    (hJ : J session.memory memory) :
    Agrees J l l' (walkAll texts options scope role address index l session)
      (walkAll texts' options scope role address index l' (session.withMemory memory)) := by
  induction h generalizing index session memory with
  | nil => exact ⟨memory, [], by rwa [walkAll_nil], rfl, by rw [walkAll_nil]; rfl,
      by rw [walkAll_nil, walkAll_nil]; rfl⟩
  | @cons s s' rest rest' hs hrest ih =>
    obtain ⟨hunmarked, hlock⟩ := hs
    have hrole : runs role s' = runs role s := by
      unfold runs
      rw [← Statement.unmarked_role s', ← hunmarked, Statement.unmarked_role]
    have hrests : unmarkedAll rest = unmarkedAll rest' :=
      Statement.unmarkedAll_eq_unmarkedAll_iff.mpr (hrest.imp fun _ _ h => h.1)
    cases hruns : runs role s with
    | false =>
      rw [walkAll_skip hruns, walkAll_skip (hrole.trans hruns)]
      obtain ⟨n, added, hn, hadded, hvalue, hout⟩ := ih (index + 1) hJ
      refine ⟨n, s.unmarked :: added, hn, ?_, ?_, ?_⟩
      · simp [unmarkedAll, hadded]
      · simp [joinAll, hvalue]
      · simp [joinAll, hout, hunmarked]
    | true =>
      obtain ⟨n, added, hn, hadded, hvalue, hout⟩ := hlock scope (index :: address) session memory hJ
      rcases herror : (walk texts options scope (index :: address) s session).error with _ | e
      · have herror' := congrArg Outcome.error hout
        obtain ⟨m, others, hm, hothers, hvalues, houts⟩ := ih (index + 1) hn
        rw [walkAll_run hruns herror, walkAll_run (hrole.trans hruns) (herror'.trans herror)]
        refine ⟨m, added :: others, hm, ?_, ?_, ?_⟩
        · simp [unmarkedAll, hadded, hothers]
        · simp [joinAll, hvalue, hvalues]
        · simp [joinAll, hout, houts]
      · have herror' := congrArg Outcome.error hout
        rw [walkAll_error hruns herror, walkAll_error (hrole.trans hruns) (herror'.trans herror)]
        refine ⟨n, added :: unmarkedAll rest, hn, ?_, ?_, ?_⟩
        · simp [unmarkedAll, hadded]
        · simp [joinAll, hvalue]
        · simp [joinAll, hout, hrests]

theorem agrees_runInside {s s' : Statement} (ht : texts.Agree J texts') (hs : s.unmarked = s'.unmarked)
    (h : List.Forall₂ (fun s s' => s.unmarked = s'.unmarked ∧ Lockstep J texts texts' options s s')
      s.children s'.children)
    (scope : Nat) (address : Address) (session : Session μ) (hJ : J session.memory memory) :
    Agrees J s.children s'.children (runInside texts options scope address s session)
      (runInside texts' options scope address s' (session.withMemory memory)) := by
  obtain ⟨hkind, htext, -, hchildren⟩ := Statement.unmarked_eq_unmarked_iff.mp hs
  have hwalk := fun scope role (session : Session μ) {memory} (hJ : J session.memory memory) =>
    agrees_walkAll h scope role address 0 hJ
  have hstay := fun {session : Session μ} {memory} (hJ : J session.memory memory) =>
    agrees_unchanged (J := J) (Statement.unmarkedAll_eq_unmarkedAll_iff.mpr hchildren).symm hJ
  unfold runInside
  rw [← hkind, ← htext]
  cases s.kind with
  | function =>
    obtain ⟨hmemory, hbind⟩ := bindParameters_withMemory options
      ((Statement.nameInHead? s.text).getD Session.anonymous) scope (Statement.parameterNames s.text)
      session memory
    simp only [hbind]
    rw [← hmemory] at hJ
    generalize session.bindParameters options _ scope _ = bound at hJ
    obtain ⟨_ | _, session₁⟩ := bound
    · exact hstay hJ _
    · exact hwalk scope none _ hJ
  | assignment =>
    obtain ⟨n, hn, hassign⟩ := assign_withMemory ht hJ s.text scope
    simp only [hassign]
    generalize session.assign texts s.text scope = assigned at hn
    obtain ⟨_ | _, session₁⟩ := assigned
    · exact hstay hn _
    · exact hstay hn _
  | conditional =>
    obtain ⟨n, hn, htest⟩ := test_withMemory ht hJ s.text scope
    simp only [htest]
    generalize session.test texts s.text scope = tested at hn
    obtain ⟨_ | holds, session₁⟩ := tested
    · exact hstay hn _
    · obtain ⟨m, added, hm, hadded, hvalue, hout⟩ := hwalk session₁.environment.nextScope
        (some (if holds then .consequent else .alternate)) (session₁.enter scope) hn
      refine ⟨m, added, hm, hadded, hvalue, ?_⟩
      exact congrArg (fun out : Outcome ν (List Statement) =>
        { out with session := out.session.exit session₁.environment.nextScope }) hout
  | loop =>
    refine agrees_runLoop ht ⟨htext.symm, rfl, rfl, fun inside session n hn => ?_⟩
      (Statement.unmarkedAll_eq_unmarkedAll_iff.mpr hchildren).symm options hJ
    exact hwalk inside (some .body) session hn
  | returning => exact hwalk scope none _ hJ
  | other => exact hwalk scope none _ hJ

theorem lockstep_walk (options : WalkOptions) (ht : texts.Agree J texts') {s s' : Statement}
    (hs : s.unmarked = s'.unmarked) :
    Lockstep J texts texts' options s s' := by
  refine Statement.alike_induction (motive := Lockstep J texts texts' options) ?_ hs
  intro kind text role a b xs ys hxy scope address session memory hJ
  have hchildren : unmarkedAll xs = unmarkedAll ys :=
    Statement.unmarkedAll_eq_unmarkedAll_iff.mpr (hxy.imp fun _ _ h => h.1)
  have hs : Statement.unmarked ⟨kind, text, role, a, xs⟩ = Statement.unmarked ⟨kind, text, role, b, ys⟩ :=
    Statement.unmarked_eq_unmarked_iff.mpr ⟨rfl, rfl, rfl, hxy.imp fun _ _ h => h.1⟩
  by_cases hdepth : options.maxDepth ≤ session.depth
  · rw [walk_tooDeep hdepth, walk_tooDeep (by exact hdepth)]
    exact ⟨memory, Statement.unmarked ⟨kind, text, role, a, xs⟩, hJ, by simp, by simp, by simp [hs]⟩
  · rw [walk_eq hdepth, walk_eq (by exact hdepth)]
    obtain ⟨n, added, hn, hadded, hvalue, hout⟩ := agrees_runInside ht hs hxy scope address
      { session with depth := session.depth + 1 } hJ
    refine ⟨n, ⟨kind, text, role, true, added⟩, hn, ?_, ?_, ?_⟩
    · simp [Statement.unmarked, hadded]
    · simp [Statement.join_eq, hvalue]
    · simp only [Statement.join_eq, Bool.or_true]
      exact congrArg (fun out : Outcome ν (List Statement) =>
        Outcome.mk (Statement.mk kind text role true out.value)
          { out.session with depth := out.session.depth - 1 } out.error) hout

end Statement

/-! ## Trees with other marks -/

section Marks

variable (texts : Texts μ) (options : WalkOptions) (scope : Nat)

theorem agree_refl : texts.Agree (· = ·) texts where
  condition h _ := by rw [h]; exact ⟨rfl, rfl⟩
  assignment h _ := by rw [h]; exact ⟨rfl, rfl⟩

/-- A walk adds its marks to those that a tree has already, and does nothing else with those. -/
theorem walk_of_alike {s s' : Statement} (h : s.unmarked = s'.unmarked) (address : Address)
    (session : Session μ) :
    ∃ added, s.unmarked = added.unmarked ∧
      (walk texts options scope address s session).value = s.join added ∧
      walk texts options scope address s' session =
        { walk texts options scope address s session with value := s'.join added } := by
  obtain ⟨n, added, hn, hadded, hvalue, hout⟩ :=
    lockstep_walk options (agree_refl texts) h scope address session session.memory rfl
  obtain rfl : (walk texts options scope address s session).session.memory = n := hn
  exact ⟨added, hadded, hvalue, hout⟩

theorem walkAll_of_alike {l l' : List Statement} (h : unmarkedAll l = unmarkedAll l')
    (role : Option Role) (address : Address) (index : Nat) (session : Session μ) :
    ∃ added, unmarkedAll l = unmarkedAll added ∧
      (walkAll texts options scope role address index l session).value = joinAll l added ∧
      walkAll texts options scope role address index l' session =
        { walkAll texts options scope role address index l session with value := joinAll l' added } := by
  have hl := (Statement.unmarkedAll_eq_unmarkedAll_iff.mp h).imp
    fun s s' h => And.intro h (lockstep_walk options (agree_refl texts) h)
  obtain ⟨n, added, hn, hadded, hvalue, hout⟩ :=
    agrees_walkAll hl scope role address index (Eq.refl session.memory)
  obtain rfl : (walkAll texts options scope role address index l session).session.memory = n := hn
  exact ⟨added, hadded, hvalue, hout⟩

@[simp] theorem unmarked_walk (address : Address) (s : Statement) (session : Session μ) :
    (walk texts options scope address s session).value.unmarked = s.unmarked := by
  obtain ⟨added, -, hvalue, -⟩ := walk_of_alike texts options scope (Eq.refl s.unmarked) address session
  rw [hvalue, Statement.unmarked_join]

@[simp] theorem unmarkedAll_walkAll (role : Option Role) (address : Address) (index : Nat)
    (l : List Statement) (session : Session μ) :
    unmarkedAll (walkAll texts options scope role address index l session).value = unmarkedAll l := by
  obtain ⟨added, -, hvalue, -⟩ :=
    walkAll_of_alike texts options scope (Eq.refl (unmarkedAll l)) role address index session
  rw [hvalue, Statement.unmarkedAll_joinAll]

end Marks

/-! ## Remembered texts -/

/-- Every text of the table stands there with what it parses to. -/
def Records (parse : String → Except ParseError Parsed) (table : Std.HashMap String Parsed) : Prop :=
  ∀ text parsed, table[text]? = some parsed → parse text = .ok parsed

theorem Records.insert {parse : String → Except ParseError Parsed} {table : Std.HashMap String Parsed}
    (h : Records parse table) {text : String} {parsed : Parsed} (hparse : parse text = .ok parsed) :
    Records parse (table.insert text parsed) := by
  intro other found hfound
  rw [Std.HashMap.getElem?_insert] at hfound
  by_cases hsame : text = other
  · simp only [hsame, beq_self_eq_true, if_true, Option.some.injEq] at hfound
    rw [← hsame, hparse, hfound]
  · simp only [beq_iff_eq, hsame, if_false] at hfound
    exact h other found hfound

/-- A memory that gives the right answers. -/
def Faithful (memory : ParsedTexts) : Prop :=
  Records parseExpression memory.conditions ∧ Records parseAssignment memory.assignments

theorem faithful_empty : Faithful {} := by
  constructor <;> intro text parsed h <;> simp at h

theorem remembered_agree_fresh :
    Texts.remembered.Agree (fun memory (_ : Unit) => Faithful memory) Texts.fresh where
  condition {memory _} h text := by
    simp only [Texts.remembered, Texts.fresh]
    rcases hknown : memory.conditions[text]? with _ | parsed
    · rcases hparse : parseExpression text with e | parsed
      · exact ⟨rfl, h⟩
      · exact ⟨rfl, h.1.insert hparse, h.2⟩
    · exact ⟨(h.1 text parsed hknown).symm, h⟩
  assignment {memory _} h text := by
    simp only [Texts.remembered, Texts.fresh]
    rcases hknown : memory.assignments[text]? with _ | parsed
    · rcases hparse : parseAssignment text with e | parsed
      · exact ⟨rfl, h⟩
      · exact ⟨rfl, h.1, h.2.insert hparse⟩
    · exact ⟨(h.2 text parsed hknown).symm, h⟩

/-- With a memory that gives the right answers a walk does what it does without one, and the memory goes on to
give the right answers. -/
theorem walk_fresh (options : WalkOptions) (scope : Nat) (address : Address) (tree : Statement)
    (session : Session ParsedTexts) (h : Faithful session.memory) :
    Faithful (walk Texts.remembered options scope address tree session).session.memory ∧
      walk Texts.fresh options scope address tree (session.withMemory ()) =
        (walk Texts.remembered options scope address tree session).withMemory () := by
  obtain ⟨_, added, hfaithful, -, hvalue, hout⟩ :=
    lockstep_walk options remembered_agree_fresh (Eq.refl tree.unmarked) scope address session () h
  rw [← hvalue] at hout
  exact ⟨hfaithful, hout⟩

theorem walkTree_fresh (options : WalkOptions) (inputs : List Value) (tree : Statement) :
    ∃ memory, walkTree Texts.fresh options tree (Session.start options inputs ()) =
      let outcome := walkTree Texts.remembered options tree (Session.start options inputs {})
      { outcome with session := outcome.session.withMemory memory } :=
  let start := Session.start options inputs ({} : ParsedTexts)
  ⟨(), (walk_fresh options 0 [0] tree { start with trees := 1 } faithful_empty).2⟩

theorem conclude_fresh (options : WalkOptions) (tree : Statement) (session : Session ParsedTexts)
    (h : Faithful session.memory) :
    conclude Texts.fresh options tree (session.withMemory ()) = conclude Texts.remembered options tree session := by
  have hwalk : walkTree Texts.fresh options tree (session.withMemory ()) =
      (walkTree Texts.remembered options tree session).withMemory () :=
    (walk_fresh options 0 [session.trees] tree { session with trees := session.trees + 1 } h).2
  rw [conclude, conclude, hwalk]
  generalize walkTree Texts.remembered options tree session = outcome
  obtain ⟨value, last, _ | e⟩ := outcome <;> rfl

/-- Remembering texts changes nothing in what a walk finds out. -/
theorem annotate_eq_fresh (options : WalkOptions) (inputs : List Value) (tree : Statement) :
    annotate options inputs tree =
      conclude Texts.fresh options tree (Session.start options inputs ()) :=
  (conclude_fresh options tree (Session.start options inputs {}) faithful_empty).symm

theorem conclude_eq_ok_iff {texts : Texts μ} {options : WalkOptions} {tree marked : Statement}
    {session : Session μ} {summary : Summary} :
    conclude texts options tree session = (marked, .ok summary) ↔
      let outcome := walkTree texts options tree session
      outcome.error = none ∧ outcome.value = marked ∧ Summary.ofSession outcome.session = summary := by
  rw [conclude]
  dsimp only
  split <;> rename_i herror
  · simp [herror]
  · simp [herror]

theorem annotate_eq_ok_iff {options : WalkOptions} {inputs : List Value} {tree marked : Statement}
    {summary : Summary} :
    annotate options inputs tree = (marked, .ok summary) ↔
      let outcome := walkTree Texts.fresh options tree (Session.start options inputs ())
      outcome.error = none ∧ outcome.value = marked ∧ Summary.ofSession outcome.session = summary := by
  rw [annotate_eq_fresh]
  exact conclude_eq_ok_iff

/-- What a walk that ends well finds, from what can be computed of it. -/
theorem exists_annotate_eq (options : WalkOptions) (inputs : List Value) (tree : Statement) {α : Type}
    (view : Statement → Summary → α) (seen : α)
    (h : (annotate options inputs tree).2.toOption.map (view (annotate options inputs tree).1) =
      some seen) :
    ∃ marked summary, annotate options inputs tree = (marked, .ok summary) ∧
      view marked summary = seen := by
  rcases hannotate : annotate options inputs tree with ⟨marked, e | summary⟩
  · rw [hannotate] at h
    cases h
  · rw [hannotate] at h
    exact ⟨marked, summary, rfl, Option.some.inj h⟩

end Path

end FlowPath
