import Mathlib.Algebra.Group.Nat.Defs
import Mathlib.Data.List.Induction
import FlowPath.Proofs.Path.Lockstep
import FlowPath.Proofs.Path.LoopRuns

/-!
# What is told of cut loops

A session keeps one entry for each loop statement that was cut off. `foldl_recordCut` says what the entries
are, going by the runs that were cut off: the loops stand in the order of their first cut, with the number of
their cuts and the most rounds that one of these runs went.

Where the runs took place is told by their addresses. `RunsRule` is the induction over lists of runs for facts
that have to do with the addresses alone: a run stands at a loop statement of the tree (`standsIn_rule`),
and no loop statement runs more often than bodies ran, or once (`sparse_rule`).
-/

namespace FlowPath

variable {μ : Type}

/-! ## Entries -/

/-- How often it is known that the loop at an address was cut off. -/
def cutsAt (address : Address) (known : List (Address × TruncatedLoop)) : Nat :=
  ((known.find? fun entry => entry.1 = address).map fun entry => entry.2.truncations).getD 0

theorem cutsAt_recordCut (address other : Address) (condition : String) (iterations : Nat)
    (known : List (Address × TruncatedLoop)) :
    cutsAt address (Session.recordCut other condition iterations known) =
      cutsAt address known + if other = address then 1 else 0 := by
  induction known with
  | nil => by_cases h : other = address <;> simp [Session.recordCut, cutsAt, h]
  | cons entry rest ih =>
    obtain ⟨key, cut⟩ := entry
    unfold cutsAt at ih ⊢
    unfold Session.recordCut
    by_cases hother : key = other
    · by_cases hkey : key = address <;> simp [← hother, hkey]
    · by_cases hkey : key = address
      · have hne : ¬ other = address := fun heq => hother (hkey.trans heq.symm)
        simp only [hother, if_false, hne]
        simp [hkey]
      · simpa [hother, hkey] using ih

/-- The entry of a loop that was cut off again. -/
def TruncatedLoop.again (entry : TruncatedLoop) (iterations : Nat) : TruncatedLoop :=
  { entry with
    iterations := max entry.iterations iterations
    truncations := entry.truncations + 1 }

section Entries

variable {address : Address} {keys : List Address} (entry : Address → TruncatedLoop) (condition : String)
  (iterations : Nat)

theorem recordCut_of_not_mem (h : address ∉ keys) :
    Session.recordCut address condition iterations (keys.map fun key => (key, entry key)) =
      (keys.map fun key => (key, entry key)) ++ [(address, { condition, iterations, truncations := 1 })] := by
  induction keys with
  | nil => rfl
  | cons key rest ih =>
    obtain ⟨hkey, hrest⟩ := not_or.mp (mt List.mem_cons.mpr h)
    rw [List.map_cons, Session.recordCut, if_neg (Ne.symm hkey), ih hrest, List.cons_append]

theorem recordCut_of_mem (hnodup : keys.Nodup) (h : address ∈ keys) :
    Session.recordCut address condition iterations (keys.map fun key => (key, entry key)) =
      keys.map fun key => (key, if key = address then (entry key).again iterations else entry key) := by
  induction keys with
  | nil => cases h
  | cons key rest ih =>
    obtain ⟨hkey, hrest⟩ := List.nodup_cons.mp hnodup
    rw [List.map_cons, Session.recordCut, List.map_cons]
    by_cases hsame : key = address
    · rw [if_pos hsame, if_pos hsame]
      refine congrArg _ (List.map_congr_left fun other hother => ?_)
      have hne : ¬ other = address := fun heq => hkey (hsame.trans heq.symm ▸ hother)
      rw [if_neg hne]
    · rw [if_neg hsame, if_neg hsame, ih hrest ((List.mem_cons.mp h).resolve_left (Ne.symm hsame))]

end Entries

namespace LoopRun

/-- The entry of a loop, going by all the runs that were cut off. -/
def tally (text : Address → String) (cut : List LoopRun) (address : Address) : TruncatedLoop :=
  let own := cut.filter fun run => run.address = address
  { condition := text address
    iterations := (own.map (·.bodies)).foldl max 0
    truncations := own.length }

/-- The loops that were cut off, in the order in which that first happened. -/
def firstCut (cut : List LoopRun) : List Address := (cut.map (·.address)).eraseDups

theorem firstCut_append (cut : List LoopRun) (run : LoopRun) :
    firstCut (cut ++ [run]) = firstCut cut ++ if run.address ∈ firstCut cut then [] else [run.address] := by
  have hmem : run.address ∈ firstCut cut ↔ run.address ∈ cut.map (·.address) := List.mem_eraseDups
  rw [firstCut, List.map_append, List.eraseDups_append]
  refine congrArg (firstCut cut ++ ·) ?_
  simp only [hmem]
  generalize cut.map (·.address) = known
  by_cases h : run.address ∈ known <;> simp [List.removeAll, List.eraseDups_cons, h]

theorem nodup_firstCut (cut : List LoopRun) : (firstCut cut).Nodup := by
  induction cut using List.reverseRecOn with
  | nil => exact List.nodup_nil
  | append_singleton cut run ih =>
    rw [firstCut_append]
    split
    · rwa [List.append_nil]
    · rename_i h
      rw [List.nodup_append]
      refine ⟨ih, List.pairwise_singleton _ _, fun address haddress other hother heq => ?_⟩
      rw [List.mem_singleton.mp hother] at heq
      exact h (heq ▸ haddress)

theorem tally_append (text : Address → String) (cut : List LoopRun) (run : LoopRun) (address : Address) :
    tally text (cut ++ [run]) address =
      if address = run.address then (tally text cut address).again run.bodies
      else tally text cut address := by
  unfold tally
  by_cases h : run.address = address
  · simp [h, TruncatedLoop.again]
  · simp [h, Ne.symm h]

theorem tally_of_not_mem (text : Address → String) {cut : List LoopRun} {address : Address}
    (h : address ∉ firstCut cut) :
    tally text cut address = { condition := text address, iterations := 0, truncations := 0 } := by
  have hnone : cut.filter (fun run => run.address = address) = [] := by
    refine List.filter_eq_nil_iff.mpr fun run hrun heq => h ?_
    rw [← of_decide_eq_true heq]
    exact List.mem_eraseDups.mpr (List.mem_map_of_mem hrun)
  simp [tally, hnone]

/-- The entries are the tallies of the loops that were cut off. -/
theorem foldl_recordCut {text : Address → String} {cut : List LoopRun}
    (h : ∀ run ∈ cut, run.condition = text run.address) :
    cut.foldl (fun known run => Session.recordCut run.address run.condition run.bodies known) [] =
      (firstCut cut).map fun address => (address, tally text cut address) := by
  induction cut using List.reverseRecOn with
  | nil => rfl
  | append_singleton cut run ih =>
    obtain ⟨hcut, hrun⟩ := List.forall_mem_append.mp h
    rw [List.foldl_append, ih hcut, List.foldl_cons, List.foldl_nil, firstCut_append,
      hrun run List.mem_cons_self]
    simp only [tally_append]
    split
    · rename_i hknown
      rw [recordCut_of_mem _ _ _ (nodup_firstCut cut) hknown, List.append_nil]
    · rename_i hnew
      rw [recordCut_of_not_mem _ _ _ hnew, List.map_append, List.map_singleton, if_pos rfl,
        tally_of_not_mem text hnew]
      refine congrArg₂ (· ++ ·) (List.map_congr_left fun address haddress => ?_) ?_
      · have hother : ¬ address = run.address := fun heq => hnew (heq ▸ haddress)
        rw [if_neg hother]
      · simp [TruncatedLoop.again]

theorem foldl_note (known : List (Address × TruncatedLoop)) (listed : List LoopRun) :
    listed.foldl note known = (listed.filter (·.ending.isCut)).foldl
      (fun known run => Session.recordCut run.address run.condition run.bodies known) known := by
  rw [List.foldl_filter]
  rfl

theorem cutsAt_note (address : Address) (known : List (Address × TruncatedLoop)) (run : LoopRun) :
    cutsAt address (note known run) =
      cutsAt address known + if run.address = address ∧ run.ending.isCut then 1 else 0 := by
  unfold note
  cases run.ending.isCut with
  | false => simp
  | true => simp [cutsAt_recordCut]

/-- Runs of other loops add no cut of a loop. -/
theorem cutsAt_foldl_note {address : Address} {listed : List LoopRun}
    (h : ∀ run ∈ listed, run.address ≠ address) (known : List (Address × TruncatedLoop)) :
    cutsAt address (listed.foldl note known) = cutsAt address known := by
  induction listed generalizing known with
  | nil => rfl
  | cons run rest ih =>
    obtain ⟨hrun, hrest⟩ := List.forall_mem_cons.mp h
    rw [List.foldl_cons, ih hrest, cutsAt_note]
    simp [hrun]

end LoopRun

/-! ## Where loops run -/

/-- The statement at an address, whatever the number of the tree. -/
def Statement.at? (tree : Statement) : Address → Option Statement
  | [] => none
  | [_] => some tree
  | index :: next :: outer => (tree.at? (next :: outer)).bind (·.children[index]?)

theorem Statement.at?_cons {tree s : Statement} {address : Address} (h : tree.at? address = some s)
    (index : Nat) : tree.at? (index :: address) = s.children[index]? := by
  cases address with
  | nil => cases h
  | cons next outer => rw [Statement.at?, h, Option.bind_some]

/-- The run is one of a loop statement of the tree. -/
def LoopRun.StandsIn (tree : Statement) (run : LoopRun) : Prop :=
  ∃ loop, tree.at? run.address = some loop ∧ loop.kind = .loop ∧ loop.text = run.condition

namespace Path

open Statement (Role)
open LoopRun (bodiesIn)

section Rounds

variable {texts : Texts μ} {options : WalkOptions} {parts : LoopParts μ}
  {inside : Nat → Session μ → List LoopRun} {budget : Nat} {session : Session μ} {body : List LoopRun}

theorem mem_roundNotes (h : body ∈ (roundNotes texts options parts inside budget session).1) :
    ∃ inner now, body = inside inner now := by
  have hall : ∀ body ∈ (roundNotes texts options parts inside budget session).1, ∃ inner now, body = inside inner now :=
    forall_mem_roundNotes (I := fun _ => True) (fun _ _ _ _ _ => ⟨⟨_, _, rfl⟩, trivial⟩) budget trivial
  exact hall body h

end Rounds

/-- What holds of the lists of runs in statements and in sequences of statements by the way in which the
lists are made. -/
structure RunsRule (P : Address → Statement → List LoopRun → Prop)
    (Q : Address → Nat → List Statement → List LoopRun → Prop) : Prop where
  /-- No run, in a statement that has no loop or fails early. -/
  empty (address : Address) (s : Statement) : P address s []
  children {address : Address} {s : Statement} {listed : List LoopRun} (h : Q address 0 s.children listed) :
    P address s listed
  loop {address : Address} {s : Statement} {bodies : List (List LoopRun)} (ending : LoopEnd)
    (hkind : s.kind = .loop) (h : ∀ body ∈ bodies, Q address 0 s.children body) :
    P address s (bodies.flatten ++ [{ address, condition := s.text, bodies := bodies.length, ending }])
  /-- No run, after the last statement that is walked. -/
  nil (address : Address) (index : Nat) (statements : List Statement) : Q address index statements []
  skip {address : Address} {index : Nat} {s : Statement} {rest : List Statement} {listed : List LoopRun}
    (h : Q address (index + 1) rest listed) : Q address index (s :: rest) listed
  run {address : Address} {index : Nat} {s : Statement} {rest : List Statement} {first others : List LoopRun}
    (hfirst : P (index :: address) s first) (hothers : Q address (index + 1) rest others) :
    Q address index (s :: rest) (first ++ others)

namespace RunsRule

variable {P : Address → Statement → List LoopRun → Prop}
  {Q : Address → Nat → List Statement → List LoopRun → Prop} {texts : Texts μ} {options : WalkOptions}

theorem sequence (rule : RunsRule P Q) {statements : List Statement}
    (h : ∀ s ∈ statements, ∀ scope address session,
      P address s (loopRuns texts options scope address s session))
    (scope : Nat) (role : Option Role) (address : Address) (index : Nat) (session : Session μ) :
    Q address index statements (notesAll loopObserver texts options scope role address index statements session) := by
  induction statements generalizing index session with
  | nil =>
    rw [notesAll_nil]
    exact rule.nil address index []
  | cons s rest ih =>
    obtain ⟨hfirst, hrest⟩ := List.forall_mem_cons.mp h
    cases hruns : runs role s with
    | false =>
      rw [notesAll_skip hruns]
      exact rule.skip (ih hrest (index + 1) session)
    | true =>
      rw [notesAll_run hruns]
      refine rule.run (hfirst scope (index :: address) session) ?_
      dsimp only
      split
      · exact rule.nil address (index + 1) rest
      · exact ih hrest (index + 1) _

theorem statement (rule : RunsRule P Q) (texts : Texts μ) (options : WalkOptions) (s : Statement)
    (scope : Nat) (address : Address) (session : Session μ) :
    P address s (loopRuns texts options scope address s session) := by
  induction s generalizing scope address session with
  | node kind text role onPath children ih =>
    by_cases hdepth : options.maxDepth ≤ session.depth
    · rw [loopRuns, notes_tooDeep hdepth]
      exact rule.empty address _
    · rw [loopRuns, notes_eq hdepth]
      have hchildren := rule.sequence ih
      unfold notesInside
      cases kind with
      | function =>
        dsimp only
        split
        · exact rule.empty address _
        · exact rule.children (hchildren scope none address 0 _)
      | assignment => exact rule.empty address _
      | conditional =>
        dsimp only
        split
        · exact rule.empty address _
        · exact rule.children (hchildren _ _ address 0 _)
      | loop =>
        refine rule.loop _ rfl fun body hbody => ?_
        obtain ⟨inner, now, rfl⟩ := mem_roundNotes hbody
        exact hchildren inner (some .body) address 0 now
      | returning | other => exact rule.children (hchildren scope none address 0 _)

end RunsRule

/-! ## How often a loop can run -/

/-- The address is that of a statement of a sequence, from an index on, or of one inside it. -/
def InSequence (outer : Address) (index : Nat) (address : Address) : Prop :=
  ∃ position, index ≤ position ∧ (position :: outer) <:+ address

section InSequence

variable {outer address : Address} {index : Nat}

theorem InSequence.suffix (h : InSequence outer index address) : outer <:+ address := by
  obtain ⟨position, -, hsuffix⟩ := h
  exact (List.suffix_cons position outer).trans hsuffix

theorem InSequence.of_succ (h : InSequence outer (index + 1) address) : InSequence outer index address := by
  obtain ⟨position, hposition, hsuffix⟩ := h
  exact ⟨position, Nat.le_of_succ_le hposition, hsuffix⟩

theorem InSequence.ne (h : InSequence outer index address) : address ≠ outer := by
  rintro rfl
  obtain ⟨position, -, hsuffix⟩ := h
  exact absurd hsuffix.length_le (by simp)

theorem not_inSequence_of_suffix (h : (index :: outer) <:+ address) :
    ¬ InSequence outer (index + 1) address := by
  rintro ⟨position, hposition, hsuffix⟩
  have hsame : index :: outer = position :: outer :=
    (List.suffix_of_suffix_length_le h hsuffix (Nat.le_refl _)).eq_of_length rfl
  have hindex : index = position := List.head_eq_of_cons_eq hsame
  omega

end InSequence

/-- The runs are at addresses of a kind, and no loop runs more often than bodies ran, or once. -/
structure Sparse (among : Address → Prop) (listed : List LoopRun) : Prop where
  among : ∀ run ∈ listed, among run.address
  count (address : Address) :
    (listed.countP fun run => run.address = address) ≤ max 1 (bodiesIn listed)

theorem Sparse.countP_eq_zero {among : Address → Prop} {listed : List LoopRun} (h : Sparse among listed)
    {address : Address} (hnot : ¬ among address) :
    (listed.countP fun run => run.address = address) = 0 := by
  refine List.countP_eq_zero.mpr fun run hrun heq => hnot ?_
  rw [← of_decide_eq_true heq]
  exact h.among run hrun

theorem countP_flatten_le {among : Address → Prop} {bodies : List (List LoopRun)}
    (h : ∀ body ∈ bodies, Sparse among body) (address : Address) :
    (bodies.flatten.countP fun run => run.address = address) ≤ bodies.length + bodiesIn bodies.flatten := by
  induction bodies with
  | nil => exact Nat.zero_le _
  | cons body rest ih =>
    obtain ⟨hbody, hrest⟩ := List.forall_mem_cons.mp h
    have hfirst := hbody.count address
    have hothers := ih hrest
    rw [List.flatten_cons, List.countP_append, List.length_cons, LoopRun.bodiesIn_append]
    omega

theorem sparse_rule :
    RunsRule (fun address _ => Sparse (address <:+ ·))
      (fun address index _ => Sparse (InSequence address index)) where
  empty _ _ := ⟨by simp, by simp⟩
  children h := ⟨fun run hrun => (h.among run hrun).suffix, h.count⟩
  loop {address s bodies} ending _ h := by
    have hinside : ∀ run ∈ bodies.flatten, InSequence address 0 run.address := by
      intro run hrun
      obtain ⟨body, hbody, hrun⟩ := List.mem_flatten.mp hrun
      exact (h body hbody).among run hrun
    refine ⟨List.forall_mem_append.mpr ⟨fun run hrun => ?_, ?_⟩, fun other => ?_⟩
    · exact (hinside run hrun).suffix
    · exact List.forall_mem_singleton.mpr (List.suffix_refl address)
    · rw [List.countP_append, List.countP_singleton, LoopRun.bodiesIn_append, LoopRun.bodiesIn_singleton]
      by_cases hown : address = other
      · -- The loop itself ran once, and nothing in its bodies is at its address.
        have hnone : (bodies.flatten.countP fun run => run.address = other) = 0 :=
          List.countP_eq_zero.mpr fun run hrun heq =>
            (hinside run hrun).ne ((of_decide_eq_true heq).trans hown.symm)
        simp only [hnone, hown, decide_true, if_true]
        omega
      · have hbodies := countP_flatten_le h other
        simp only [hown, decide_false, Bool.false_eq_true, if_false]
        omega
  nil _ _ _ := ⟨by simp, by simp⟩
  skip h := ⟨fun run hrun => (h.among run hrun).of_succ, h.count⟩
  run {address index s rest first others} hfirst hothers := by
    refine ⟨List.forall_mem_append.mpr ⟨fun run hrun => ?_, fun run hrun => ?_⟩, fun other => ?_⟩
    · exact ⟨index, Nat.le_refl index, hfirst.among run hrun⟩
    · exact (hothers.among run hrun).of_succ
    · -- An address lies in the first statement or in the others, not in both.
      have hcount := hfirst.count other
      have hcount' := hothers.count other
      rw [List.countP_append, LoopRun.bodiesIn_append]
      by_cases hin : (index :: address) <:+ other
      · rw [hothers.countP_eq_zero (not_inSequence_of_suffix hin)]
        omega
      · rw [hfirst.countP_eq_zero hin]
        omega

/-! ## At which statements loops run -/

/-- The statements of a sequence stand in the tree, numbered from an index on. -/
def StandAt (tree : Statement) (outer : Address) (index : Nat) (statements : List Statement) : Prop :=
  ∀ k child, statements[k]? = some child → tree.at? ((index + k) :: outer) = some child

theorem standAt_children {tree s : Statement} {address : Address} (h : tree.at? address = some s) :
    StandAt tree address 0 s.children := by
  intro k child hchild
  rw [Nat.zero_add, Statement.at?_cons h, hchild]

theorem StandAt.tail {tree s : Statement} {outer : Address} {index : Nat} {rest : List Statement}
    (h : StandAt tree outer index (s :: rest)) : StandAt tree outer (index + 1) rest := by
  intro k child hchild
  rw [Nat.add_right_comm, Nat.add_assoc]
  exact h (k + 1) child hchild

theorem standsIn_rule (tree : Statement) :
    RunsRule (fun address s listed => tree.at? address = some s → ∀ run ∈ listed, run.StandsIn tree)
      (fun address index statements listed =>
        StandAt tree address index statements → ∀ run ∈ listed, run.StandsIn tree) where
  empty _ _ _ := by simp
  children h hat := h (standAt_children hat)
  loop {address s bodies} ending hkind h hat := by
    refine List.forall_mem_append.mpr ⟨fun run hrun => ?_, ?_⟩
    · obtain ⟨body, hbody, hrun⟩ := List.mem_flatten.mp hrun
      exact h body hbody (standAt_children hat) run hrun
    · exact List.forall_mem_singleton.mpr ⟨s, hat, hkind, rfl⟩
  nil _ _ _ _ := by simp
  skip h hat := h hat.tail
  run {address index s rest first others} hfirst hothers hat :=
    List.forall_mem_append.mpr ⟨hfirst (hat 0 s rfl), hothers hat.tail⟩

/-! ## Bounds -/

/-- The three ways in which a loop can end that does not fail, by the session after its last round, the number
of its rounds, the rounds of all loops, and the cuts of the loop that are known before and after it. -/
inductive EndsWell (texts : Texts μ) (options : WalkOptions) (parts : LoopParts μ) (last : Session μ)
    (budget bodies rounds before : Nat) : LoopEnd → Nat → Prop where
  | ended (htest : (last.test texts parts.condition parts.scope).1 = .ok false) :
    EndsWell texts options parts last budget bodies rounds before .ended before
  | spent (htest : (last.test texts parts.condition parts.scope).1 = .ok true)
    (hbudget : bodies = budget + 1) :
    EndsWell texts options parts last budget bodies rounds before .spent (before + 1)
  | capped (htest : (last.test texts parts.condition parts.scope).1 = .ok true)
    (hrounds : options.maxRounds ≤ rounds) :
    EndsWell texts options parts last budget bodies rounds before .capped (before + 1)

theorem EndsWith.endsWell {texts : Texts μ} {options : WalkOptions} {parts : LoopParts μ}
    {inside : Nat → Session μ → List LoopRun} {budget bodies : Nat} {last after : Session μ}
    {ending : LoopEnd} {more : List (List LoopRun)}
    (h : EndsWith texts options parts inside (bodies = budget + 1) bodies last ending more after none)
    (before : Nat) :
    more = [] ∧ EndsWell texts options parts last budget bodies after.rounds before ending
      (before + if ending.isCut then 1 else 0) := by
  cases h with
  | ended htest => exact ⟨rfl, .ended (by rw [htest])⟩
  | spent hspent htest => exact ⟨rfl, .spent (by rw [htest]) hspent⟩
  | capped htest hrounds => exact ⟨rfl, .capped (by rw [htest]) hrounds⟩

section Loop

variable {texts : Texts μ} {options : WalkOptions} {scope : Nat} {address : Address} {s : Statement}
  {session : Session μ}

theorem cutsAt_walk_loop {bodies : List (List LoopRun)} {ending : LoopEnd}
    (hlisted : loopRuns texts options scope address s session =
      bodies.flatten ++ [{ address, condition := s.text, bodies := bodies.length, ending }])
    (hinside : ∀ body ∈ bodies, ∃ inner now, body = runsInBody texts options address s inner now) :
    cutsAt address (walk texts options scope address s session).session.truncated =
      cutsAt address session.truncated + if ending.isCut then 1 else 0 := by
  have hother : ∀ run ∈ bodies.flatten, run.address ≠ address := by
    intro run hrun
    obtain ⟨body, hbody, hrun⟩ := List.mem_flatten.mp hrun
    obtain ⟨inner, now, rfl⟩ := hinside body hbody
    have hsparse : Sparse (InSequence address 0) (runsInBody texts options address s inner now) :=
      sparse_rule.sequence
        (fun s _ scope address session => sparse_rule.statement texts options s scope address session)
        inner (some .body) address 0 now
    exact (hsparse.among run hrun).ne
  rw [(ledger_walk texts options s scope address session).truncated, hlisted, List.foldl_append,
    List.foldl_cons, List.foldl_nil, LoopRun.cutsAt_note, LoopRun.cutsAt_foldl_note hother]
  simp

/-- A loop that does not fail goes round at most once more than its budget says, and ends well. -/
theorem exists_rounds_walk_loop (hkind : s.kind = .loop)
    (herror : (walk texts options scope address s session).error = none) :
    ∃ bodies last ending,
      GoesRound texts options (loopParts texts options scope address s) (runsInBody texts options address s)
        session.budget { session with depth := session.depth + 1 } bodies last ∧
      bodies.length ≤ session.budget + 1 ∧
      loopRuns texts options scope address s session =
        bodies.flatten ++ [{ address, condition := s.text, bodies := bodies.length, ending }] ∧
      EndsWell texts options (loopParts texts options scope address s) last session.budget bodies.length
        (walk texts options scope address s session).session.rounds (cutsAt address session.truncated) ending
        (cutsAt address (walk texts options scope address s session).session.truncated) := by
  by_cases hdepth : options.maxDepth ≤ session.depth
  · rw [walk_tooDeep hdepth] at herror
    cases herror
  let opened := { session with depth := session.depth + 1 }
  let parts := loopParts texts options scope address s
  let inside := runsInBody texts options address s
  have hwalk : (walk texts options scope address s session).error =
        (allRounds texts options parts session.budget 0 s.children opened).error ∧
      (walk texts options scope address s session).session.rounds =
        (allRounds texts options parts session.budget 0 s.children opened).session.rounds := by
    rw [walk_eq hdepth]
    simp only [runInside, hkind]
    exact ⟨rfl, rfl⟩
  have hlist : loopRuns texts options scope address s session =
      loopNotes texts options parts inside loopObserver opened := by
    rw [loopRuns, notes_eq hdepth]
    simp only [notesInside, hkind]
    rfl
  obtain ⟨bodies, last, more, hgoes, hlength, hrounds, hends⟩ :=
    roundsTo_allRounds texts options parts inside session.budget 0 s.children opened
  rw [Nat.zero_add, ← hwalk.1, herror] at hends
  obtain ⟨rfl, hwell⟩ := hends.endsWell (cutsAt address session.truncated)
  rw [List.append_nil] at hrounds
  let ending := (roundNotes texts options parts inside session.budget opened).2
  have hlisted : loopRuns texts options scope address s session =
      bodies.flatten ++ [{ address, condition := s.text, bodies := bodies.length, ending }] := by
    rw [hlist, loopNotes, ← hrounds]
    rfl
  have hinside : ∀ body ∈ bodies, ∃ inner now, body = inside inner now :=
    fun body hbody => mem_roundNotes (hrounds ▸ hbody)
  refine ⟨bodies, last, ending, hgoes, hlength, hlisted, ?_⟩
  rw [cutsAt_walk_loop hlisted hinside, hwalk.2]
  exact hwell

end Loop

/-- The text of the statement at an address. -/
def textAt (tree : Statement) (address : Address) : String := ((tree.at? address).map (·.text)).getD ""

theorem tally_bounded {listed : List LoopRun} {among : Address → Prop} (h : Sparse among listed)
    {most : Nat} (hmost : bodiesIn listed ≤ most) (text : Address → String) (address : Address) :
    (LoopRun.tally text (listed.filter (·.ending.isCut)) address).iterations ≤ most ∧
      (LoopRun.tally text (listed.filter (·.ending.isCut)) address).truncations ≤ max 1 most := by
  constructor
  · refine List.foldlRecOn _ max (motive := (· ≤ most)) (Nat.zero_le most) ?_
    intro seen hseen bodies hbodies
    obtain ⟨run, hrun, rfl⟩ := List.mem_map.mp hbodies
    have hlisted : run ∈ listed := List.mem_of_mem_filter (List.mem_of_mem_filter hrun)
    exact Nat.max_le.mpr ⟨hseen, Nat.le_trans (LoopRun.bodies_le_bodiesIn hlisted) hmost⟩
  · have hcount := h.count address
    have hfewer : ((listed.filter (·.ending.isCut)).filter fun run => run.address = address).length ≤
        listed.countP fun run => run.address = address := by
      rw [← List.countP_eq_length_filter]
      exact List.filter_sublist.countP_le
    exact Nat.le_trans hfewer (Nat.le_trans hcount (by omega))

/-- A loop that does not fail goes round with success at most once more than its budget says, and then its
condition does not hold and no cut of it is added, or it is cut off and one cut is added, for want of budget
or because all loops together went round too often. They never do so more often than they may, even if the
walk fails. In the summary of a walk every loop statement that was cut off has one entry, in the order of the
first cuts, with the number of its cuts and the most rounds before one, and 32 bits hold these numbers. -/
theorem loops_bounded :
    (∀ (μ : Type) (texts : Texts μ) (options : WalkOptions) (scope : Nat) (address : Address)
        (s : Statement) (session : Session μ), s.kind = .loop →
      let outcome := walk texts options scope address s session
      let parts := loopParts texts options scope address s
      (outcome.error = none → ∃ bodies last ending,
        GoesRound texts options parts (runsInBody texts options address s) session.budget
          { session with depth := session.depth + 1 } bodies last ∧
        bodies.length ≤ session.budget + 1 ∧
        loopRuns texts options scope address s session =
          bodies.flatten ++ [{ address, condition := s.text, bodies := bodies.length, ending }] ∧
        EndsWell texts options parts last session.budget bodies.length outcome.session.rounds
          (cutsAt address session.truncated) ending (cutsAt address outcome.session.truncated)) ∧
      outcome.session.rounds ≤ max session.rounds options.maxRounds) ∧
    ∀ (options : WalkOptions) (inputs : List Value) (tree marked : Statement) (summary : Summary),
      options.maxRounds < 2 ^ 32 → annotate options inputs tree = (marked, .ok summary) →
      let listed := runsOfTree Texts.remembered options tree (Session.start options inputs {})
      let cut := listed.filter (·.ending.isCut)
      summary.truncated = (LoopRun.firstCut cut).map (LoopRun.tally (textAt tree) cut) ∧
      (LoopRun.firstCut cut).Nodup ∧
      (∀ run ∈ listed, run.StandsIn tree ∧ run.bodies < 2 ^ 32) ∧
      ∀ entry ∈ summary.truncated, entry.iterations < 2 ^ 32 ∧ entry.truncations < 2 ^ 32 := by
  refine ⟨fun μ texts options scope address s session hkind => ⟨exists_rounds_walk_loop hkind, ?_⟩, ?_⟩
  · exact (ledger_walk texts options s scope address session).most
  · intro options inputs tree marked summary hcap h listed cut
    obtain ⟨-, -, rfl⟩ := conclude_eq_ok_iff.mp h
    let start := { Session.start options inputs ({} : ParsedTexts) with trees := 1 }
    have hledger : Ledger options 0 start _ listed := ledger_walk Texts.remembered options tree 0 [0] start
    have hsparse : Sparse ([0] <:+ ·) listed :=
      sparse_rule.statement Texts.remembered options tree 0 [0] start
    have hstands : ∀ run ∈ listed, run.StandsIn tree :=
      (standsIn_rule tree).statement Texts.remembered options tree 0 [0] start rfl
    have hmost : bodiesIn listed ≤ options.maxRounds := by
      have hrounds := hledger.rounds
      have hbound := hledger.most
      have hstart : start.rounds = 0 := rfl
      omega
    have htext : ∀ run ∈ cut, run.condition = textAt tree run.address := by
      intro run hrun
      obtain ⟨loop, hloop, -, hcondition⟩ := hstands run (List.mem_of_mem_filter hrun)
      rw [textAt, hloop, ← hcondition]
      rfl
    have htruncated : (Summary.ofSession (walkTree Texts.remembered options tree
        (Session.start options inputs {})).session).truncated =
        (LoopRun.firstCut cut).map (LoopRun.tally (textAt tree) cut) := by
      have hentries := hledger.truncated.trans (LoopRun.foldl_note [] listed)
      rw [LoopRun.foldl_recordCut htext] at hentries
      exact (congrArg (List.map (·.2)) hentries).trans (List.map_map ..)
    refine ⟨htruncated, LoopRun.nodup_firstCut cut, fun run hrun => ⟨hstands run hrun, ?_⟩, ?_⟩
    · have hbodies := LoopRun.bodies_le_bodiesIn hrun
      omega
    · rw [htruncated]
      intro entry hentry
      obtain ⟨address, -, rfl⟩ := List.mem_map.mp hentry
      obtain ⟨hiterations, htruncations⟩ := tally_bounded hsparse hmost (textAt tree) address
      exact ⟨Nat.lt_of_le_of_lt hiterations hcap, Nat.lt_of_le_of_lt htruncations (by omega)⟩

/-- Two loops that do not end by themselves, one inside the other. -/
def spinning : Statement := .whileLoop "true" [.whileLoop "true" [.plain "tick()"]]

/-- Room for two rounds of a loop and for four of all loops. -/
def fewRounds : WalkOptions := { unrollBudget := 1, maxRounds := 4 }

/-- The inner loop is cut off once for want of budget and once because all loops went round four times. -/
theorem loops_bounded_spinning :
    (∃ bodies last ending,
      GoesRound Texts.fresh fewRounds (loopParts Texts.fresh fewRounds 0 [0] spinning)
        (runsInBody Texts.fresh fewRounds [0] spinning) 1
        { Session.start fewRounds [] () with depth := 1 } bodies last ∧ bodies.length ≤ 2 ∧
      EndsWell Texts.fresh fewRounds (loopParts Texts.fresh fewRounds 0 [0] spinning) last 1 bodies.length 4 0
        ending 1) ∧
    ∃ marked summary, annotate fewRounds [] (.program [spinning]) = (marked, .ok summary) ∧
      let listed :=
        runsOfTree Texts.remembered fewRounds (.program [spinning]) (Session.start fewRounds [] {})
      let cut := listed.filter (·.ending.isCut)
      (LoopRun.firstCut cut).map (LoopRun.tally (textAt (.program [spinning])) cut) =
        [{ condition := "true", iterations := 2, truncations := 2 },
         { condition := "true", iterations := 2, truncations := 1 }] := by
  obtain ⟨hloop, hsummary⟩ := loops_bounded
  constructor
  · have hcomputed :
        let outcome := walk Texts.fresh fewRounds 0 [0] spinning (Session.start fewRounds [] ())
        outcome.error = none ∧ outcome.session.rounds = 4 ∧ cutsAt [0] outcome.session.truncated = 1 := by
      decide +kernel
    obtain ⟨herror, hrounds, hcuts⟩ := hcomputed
    obtain ⟨bodies, last, ending, hgoes, hlength, -, hends⟩ :=
      (hloop Unit Texts.fresh fewRounds 0 [0] spinning (Session.start fewRounds [] ()) rfl).1 herror
    rw [hrounds, hcuts] at hends
    exact ⟨bodies, last, ending, hgoes, hlength, hends⟩
  · obtain ⟨marked, summary, hannotate, hseen⟩ :=
      exists_annotate_eq fewRounds [] (.program [spinning]) (fun _ summary => summary.truncated)
        [{ condition := "true", iterations := 2, truncations := 2 },
         { condition := "true", iterations := 2, truncations := 1 }]
        (by rw [annotate_eq_fresh]; decide +kernel)
    refine ⟨marked, summary, hannotate, ?_⟩
    obtain ⟨htruncated, -⟩ :=
      hsummary fewRounds [] (.program [spinning]) marked summary (by decide) hannotate
    exact htruncated.symm.trans hseen

end Path

end FlowPath
