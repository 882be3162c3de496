import SphereMultithreading.Proofs.P4.Descriptors
import SphereMultithreading.Soundness.P4.AndOr

/-! # The descriptors that are left open

A command holds one descriptor on each side, and the shell closes these when it executes the command.
The table of descriptors is restored exactly when no command is given two descriptors for one side,
and those that are skipped are given none.
-/

namespace SphereMultithreading.Soundness.P4

open Machine Machine.AndOrList Machine.Holders Model.P4

/-- A line of commands, with any redirections, that `|`, `&&` and `||` join. -/
structure ForegroundLine where
  first : List Part
  rest : List (Link × List Part)
  commands : ∀ parts ∈ first :: rest.map Prod.snd, parts.filterMap Part.argument? ≠ [] ∧
    ∀ word ∈ parts.flatMap Part.words, isOperator word = false

def ForegroundLine.words (line : ForegroundLine) : List Word :=
  line.first.flatMap Part.words ++
    line.rest.flatMap fun (l, parts) => l.word :: parts.flatMap Part.words

/-! ## What is to be closed -/

/-- A command of the line, the sides it is given descriptors for, and whether it is executed. -/
structure Station where
  command : Command
  sides : List Side
  executed : Bool
deriving DecidableEq, Repr

/-- Whether the command behind a link is executed, after one that succeeded or not. -/
def goesOn : Link → Bool → Bool
  | .pipe, _ => true
  | .connective k, success => k.continues success

/-- The stations from place `n` on. `piped` is what a pipe gives the first of them, and `previous` how
the last command that was executed has ended. -/
def stationsFrom (exitStatus : Command → Status) (previous : Status) (executed : Bool)
    (piped : List Side) (n : ℕ) (parts : List Part) : List (Link × List Part) → List Station
  | [] => [⟨⟨n, parts.flatMap Part.words⟩, sides parts ++ piped, executed⟩]
  | (l, next) :: rest =>
      let c : Command := ⟨n, parts.flatMap Part.words⟩
      let ended := if executed then exitStatus c else previous
      ⟨c, sides parts ++ piped ++ if l = .pipe then [.output] else [], executed⟩ ::
        stationsFrom exitStatus ended (goesOn l ended.success)
          (if l = .pipe then [.input] else []) (n + 2) next rest

/-- The first command is executed. -/
def ForegroundLine.stations (line : ForegroundLine) (exitStatus : Command → Status) : List Station :=
  stationsFrom exitStatus (.exited 0) true [] 0 line.first line.rest

/-- At most one descriptor for each side, and none if the command is skipped. -/
def Station.Tidy (s : Station) : Prop := s.sides.Nodup ∧ (s.sides ≠ [] → s.executed = true)

/-! ## The line and its vector -/

/-- The rest of a line under the names of its operators. -/
def named (rest : List (Link × List Part)) : List (OpType × List Part) :=
  rest.map fun link => (link.1.name, link.2)

theorem cut_append {cmd : List Word} (plain : ∀ word ∈ cmd, isOperator word = false)
    (words : List Word) : cut (cmd ++ words) = (cmd ++ (cut words).1, (cut words).2) := by
  induction cmd with
  | nil => rfl
  | cons word cmd ih =>
    rw [List.forall_mem_cons] at plain
    rw [List.cons_append, cut, if_neg (by simp [plain.1]), ih plain.2]
    rfl

theorem cut_link (l : Link) (words : List Word) :
    cut (l.word :: words) = ([], (l.name, (cut words).1) :: (cut words).2) := by
  rcases l with _ | _ | _ <;> rfl

theorem cut_rest {rest : List (Link × List Part)}
    (plain : ∀ parts ∈ rest.map Prod.snd, ∀ word ∈ parts.flatMap Part.words,
      isOperator word = false) :
    cut (rest.flatMap fun (l, parts) => l.word :: parts.flatMap Part.words) =
      ([], wordsOf (named rest)) := by
  induction rest with
  | nil => rfl
  | cons link rest ih =>
    rw [List.map_cons, List.forall_mem_cons] at plain
    rw [List.flatMap_cons, List.cons_append, cut_link, cut_append plain.1, ih plain.2,
      List.append_nil]
    rfl

theorem cut_words (line : ForegroundLine) :
    cut line.words = (line.first.flatMap Part.words, wordsOf (named line.rest)) := by
  have plain := line.commands
  rw [List.forall_mem_cons] at plain
  rw [ForegroundLine.words, cut_append plain.1.2,
    cut_rest fun parts member => (plain.2 parts member).2, List.append_nil]

theorem words_ne_nil {parts : List Part} (some : parts.filterMap Part.argument? ≠ []) :
    parts.flatMap Part.words ≠ [] := by
  cases parts with
  | nil => exact absurd rfl some
  | cons part parts => rcases part with _ | ⟨_ | _, _⟩ <;> exact List.cons_ne_nil _ _

/-! ## The commands that are executed -/

section Executed

variable {exitStatus : Command → Status}

theorem shortCircuits_link (l : Link) (status : Status) :
    shortCircuits l.name status = !goesOn l status.success := by
  cases l with
  | pipe => simp [shortCircuits, Link.name, goesOn]
  | connective k => exact shortCircuits_name k status

/-- While a connective stops, the commands behind its like are skipped, and behind no other link. -/
theorem goesOn_of_stops {k : Connective} {success : Bool} (stops : k.continues success = false)
    (l : Link) : goesOn l success = decide (l.name ≠ k.name) := by
  rcases l with _ | _ | _ <;> cases k <;> cases success <;> first | rfl | cases stops

/-- The commands of the stations that are executed. -/
def executedOf (stations : List Station) : List Command :=
  (stations.filter (·.executed)).map (·.command)

/-- `run` executes them, whether it comes to the rest of the line in the outer loop or in the inner
one. -/
theorem runLoop_stations {rest : List (Link × List Part)} {parts : List Part}
    (nonempty : ∀ parts' ∈ parts :: rest.map Prod.snd, parts'.flatMap Part.words ≠ [])
    (piped : List Side) (n : ℕ) (status : Status) :
    runLoop exitStatus .outer status (vector n (parts.flatMap Part.words) (wordsOf (named rest))) =
        executedOf (stationsFrom exitStatus status true piped n parts rest) ∧
      ∀ k : Connective, k.continues status.success = false →
        runLoop exitStatus (.inner k.name) status
            (vector n (parts.flatMap Part.words) (wordsOf (named rest))) =
          executedOf (stationsFrom exitStatus status false piped n parts rest) := by
  induction rest generalizing parts piped n status with
  | nil =>
    rw [List.map_nil, List.forall_mem_singleton] at nonempty
    rw [named, List.map_nil, wordsOf, List.map_nil, vector, if_pos nonempty]
    exact ⟨rfl, fun _ _ => rfl⟩
  | cons link rest ih =>
    obtain ⟨l, next⟩ := link
    rw [List.map_cons, List.forall_mem_cons] at nonempty
    have later := ih nonempty.2 (if l = .pipe then [.input] else []) (n + 2)
    have vector_cons : vector n (parts.flatMap Part.words) (wordsOf (named ((l, next) :: rest))) =
        .cmd ⟨n, parts.flatMap Part.words⟩ :: .op l.name ::
          vector (n + 2) (next.flatMap Part.words) (wordsOf (named rest)) := rfl
    constructor
    · have stations_cons : executedOf
          (stationsFrom exitStatus status true piped n parts ((l, next) :: rest)) =
          ⟨n, parts.flatMap Part.words⟩ ::
            executedOf (stationsFrom exitStatus (exitStatus ⟨n, parts.flatMap Part.words⟩)
              (goesOn l (exitStatus ⟨n, parts.flatMap Part.words⟩).success)
              (if l = .pipe then [.input] else []) (n + 2) next rest) := rfl
      rw [vector_cons, runLoop, runLoop, shortCircuits_link, stations_cons]
      cases goes : goesOn l (exitStatus ⟨n, parts.flatMap Part.words⟩).success with
      | true => exact congrArg (_ :: ·) (later _).1
      | false =>
        cases l with
        | pipe => cases goes
        | connective k => exact congrArg (_ :: ·) ((later _).2 k goes)
    · intro k stops
      have stations_cons : executedOf
          (stationsFrom exitStatus status false piped n parts ((l, next) :: rest)) =
          executedOf (stationsFrom exitStatus status (goesOn l status.success)
            (if l = .pipe then [.input] else []) (n + 2) next rest) := rfl
      rw [vector_cons, runLoop, runLoop, stations_cons]
      split
      · next other =>
        rw [goesOn_of_stops stops, decide_eq_true other]
        exact (later status).1
      · next same =>
        rw [goesOn_of_stops stops, decide_eq_false same]
        exact (later status).2 k stops

end Executed

/-! ## The descriptors of the stations -/

def Station.keys (s : Station) : List (ℕ × Side) := s.sides.map (s.command.place, ·)

theorem place_stations {exitStatus : Command → Status} {rest : List (Link × List Part)}
    (previous : Status) (executed : Bool) (piped : List Side) (n : ℕ) (parts : List Part) :
    (stationsFrom exitStatus previous executed piped n parts rest).Pairwise
        (fun s t => s.command.place < t.command.place) ∧
      ∀ s ∈ stationsFrom exitStatus previous executed piped n parts rest, n ≤ s.command.place := by
  induction rest generalizing previous executed piped n parts with
  | nil => simp [stationsFrom]
  | cons link rest ih =>
    obtain ⟨l, next⟩ := link
    rw [stationsFrom]
    obtain ⟨increasing, above⟩ := ih _ _ _ (n + 2) next
    refine ⟨List.pairwise_cons.mpr ⟨fun s member => ?_, increasing⟩,
      List.forall_mem_cons.mpr ⟨le_rfl, fun s member => ?_⟩⟩
    · have := above s member
      show n < _
      omega
    · have := above s member
      omega

/-- What a build opens is what the stations are given. -/
theorem keys_perm {exitStatus : Command → Status} {rest : List (Link × List Part)}
    (previous : Status) (executed : Bool) (piped : List Side) (n : ℕ) (parts : List Part) :
    (openings n parts (named rest) ++ pipes n (wordsOf (named rest)) ++ piped.map (n, ·)).Perm
      ((stationsFrom exitStatus previous executed piped n parts rest).flatMap Station.keys) := by
  induction rest generalizing previous executed piped n parts with
  | nil => simp [openings, pipes, named, wordsOf, stationsFrom, Station.keys]
  | cons link rest ih =>
    obtain ⟨l, next⟩ := link
    rw [stationsFrom, List.flatMap_cons]
    refine List.Perm.trans ?_ ((ih _ _ _ (n + 2) next).append_left _)
    rw [List.perm_iff_count]
    intro key
    change List.count key ((sides parts).map (n, ·) ++ openings (n + 2) next (named rest) ++
      ((if l.name = .CONVEYOR then [(n + 2, .input), (n, .output)] else []) ++
        pipes (n + 2) (wordsOf (named rest))) ++ piped.map (n, ·)) = _
    have pipe : l.name = .CONVEYOR ↔ l = .pipe := by
      rcases l with _ | _ | _ <;> simp [Link.name, Connective.name]
    simp only [Station.keys, List.map_append, List.count_append, pipe]
    split
    · simp only [List.count_cons, List.count_nil, List.map_cons, List.map_nil]
      omega
    · simp only [List.count_nil, List.map_nil]
      omega

section Increasing

variable {stations : List Station}
  (increasing : stations.Pairwise fun s t => s.command.place < t.command.place)

include increasing

theorem station_unique {s t : Station} (listed : s ∈ stations) (listed' : t ∈ stations)
    (same : s.command.place = t.command.place) : s = t := by
  have places : (stations.map fun s => s.command.place).Nodup :=
    List.pairwise_map.mpr (increasing.imp ne_of_lt)
  exact List.inj_on_of_nodup_map places listed listed' same

theorem nodup_ends : ((executedOf stations).flatMap ends).Nodup := by
  rw [List.nodup_flatMap]
  refine ⟨fun c _ => by simp [ends], ?_⟩
  rw [executedOf, List.pairwise_map]
  refine (increasing.filter _).imp fun {s t} below key member member' => ?_
  simp only [ends, List.mem_pair] at member member'
  rcases member with rfl | rfl <;> rcases member' with same | same <;>
    exact below.ne (Prod.mk.inj same).1

/-- Every key is used once and closed exactly when the stations are tidy. -/
theorem tidy_iff : (stations.flatMap Station.keys).Nodup ∧
      stations.flatMap Station.keys ⊆ (executedOf stations).flatMap ends ↔
    ∀ s ∈ stations, s.Tidy := by
  have distinct (s : Station) : s.keys.Nodup ↔ s.sides.Nodup :=
    List.nodup_map_iff fun side side' same => (Prod.mk.inj same).2
  have apart : stations.Pairwise (Function.onFun List.Disjoint Station.keys) := by
    refine increasing.imp fun {s t} below key member member' => ?_
    obtain ⟨side, -, rfl⟩ := List.mem_map.mp member
    obtain ⟨side', -, same⟩ := List.mem_map.mp member'
    exact below.ne' (Prod.mk.inj same).1
  rw [List.nodup_flatMap, and_iff_left apart]
  constructor
  · rintro ⟨once, covered⟩ s listed
    refine ⟨(distinct s).mp (once s listed), fun given => ?_⟩
    obtain ⟨side, member⟩ := List.exists_mem_of_ne_nil _ given
    have used : (s.command.place, side) ∈ stations.flatMap Station.keys :=
      List.mem_flatMap.mpr ⟨s, listed, List.mem_map_of_mem member⟩
    obtain ⟨c, executed, own⟩ := List.mem_flatMap.mp (covered used)
    obtain ⟨t, kept, rfl⟩ := List.mem_map.mp executed
    obtain ⟨listed', runs⟩ := List.mem_filter.mp kept
    have same : s.command.place = t.command.place := by
      simp only [ends, List.mem_pair, Prod.mk.injEq] at own
      exact own.elim And.left And.left
    rwa [station_unique increasing listed listed' same]
  · intro tidy
    refine ⟨fun s listed => (distinct s).mpr (tidy s listed).1, fun key used => ?_⟩
    obtain ⟨s, listed, own⟩ := List.mem_flatMap.mp used
    obtain ⟨side, member, rfl⟩ := List.mem_map.mp own
    have runs := (tidy s listed).2 (List.ne_nil_of_mem member)
    refine List.mem_flatMap.mpr ⟨s.command,
      List.mem_map_of_mem (List.mem_filter.mpr ⟨listed, runs⟩), ?_⟩
    cases side <;> simp [ends]

end Increasing

/-! ## The whole line -/

theorem exists_build_words (line : ForegroundLine) (fds : Descriptors) :
    ∃ b, build line.words fds = some b := by
  have first := line.commands
  rw [List.forall_mem_cons] at first
  have made (parts : List Part) (rest : List (OpType × List Part)) :
      ∀ segment ∈ Build.segments (parts.flatMap Part.words) (wordsOf rest), ∃ parts : List Part,
        segment = parts.flatMap Part.words := by
    induction rest generalizing parts with
    | nil =>
      intro segment member
      rw [wordsOf, List.map_nil, Build.segments] at member
      split at member
      · exact ⟨parts, List.mem_singleton.mp member⟩
      · cases member
    | cons link rest ih => exact List.forall_mem_cons.mpr ⟨⟨parts, rfl⟩, ih link.2⟩
  have joined {rest : List (Link × List Part)}
      (commands : ∀ parts ∈ rest.map Prod.snd, parts.flatMap Part.words ≠ []) :
      Build.PipesJoin (wordsOf (named rest)) := by
    induction rest with
    | nil => trivial
    | cons link rest ih =>
      rw [List.map_cons, List.forall_mem_cons] at commands
      exact ⟨fun _ => .inl commands.1, ih commands.2⟩
  refine exists_build ?_ ?_ ?_ fds
  · rw [cut_words]
    exact made line.first (named line.rest)
  · rw [cut_words]
    exact joined fun parts member => words_ne_nil (first.2 parts member).1
  · exact List.append_ne_nil_of_left_ne_nil (words_ne_nil first.1.1) _

/-- What a line that was built holds. -/
theorem holds_build {line : ForegroundLine} {table : Finset ℕ} {b : Build}
    (built : build line.words ⟨table, []⟩ = some b) :
    Holds table (openings 0 line.first (named line.rest) ++ pipes 0 (wordsOf (named line.rest)))
        (holders b.members b.fds) ∧
      b.fds.closed = [] ∧
      b.operands = vector 0 (line.first.flatMap Part.words) (wordsOf (named line.rest)) := by
  obtain ⟨b₀, pushed, set⟩ := build_eq_some built
  rw [cut_words] at pushed
  have operands := (Build.pushSegments_spec pushed).1
  rw [List.nil_append] at operands
  obtain ⟨held, closed⟩ := Build.holders_pushSegments (fun _ _ => rfl) pushed
  rw [operands] at set
  obtain ⟨held', closed'⟩ := Build.holders_setPipes set
  have start : holders (fun _ => ⟨[], none, none⟩) ⟨table, []⟩ = ⟨table, fun _ => none⟩ := by
    refine Holders.ext rfl (funext fun key => ?_)
    obtain ⟨place, side⟩ := key
    cases side <;> rfl
  refine ⟨?_, closed'.trans closed, (Build.setPipes_spec set).1.trans operands⟩
  rw [held', held, ← acquireAll_append]
  dsimp only [List.length_nil]
  rw [start]
  exact holds_acquireAll ..

/-- The closing of `run` restores the table exactly when the stations of the line are tidy. -/
theorem restored_iff {line : ForegroundLine} {table : Finset ℕ} {b : Build}
    (built : build line.words ⟨table, []⟩ = some b) (exitStatus : Command → Status)
    (status : Status) :
    (b.run exitStatus status).table = table ∧ (b.run exitStatus status).closed.Nodup ↔
      ∀ s ∈ line.stations exitStatus, s.Tidy := by
  obtain ⟨holds, closed, operands⟩ := holds_build built
  have first := line.commands
  have executed : Model.P4.run exitStatus status b.operands = executedOf (line.stations exitStatus) := by
    have whole : runLoop exitStatus .outer status
        (vector 0 (line.first.flatMap Part.words) (wordsOf (named line.rest))) =
        executedOf (stationsFrom exitStatus status true [] 0 line.first line.rest) :=
      (runLoop_stations (fun parts member => words_ne_nil (first parts member).1) [] 0 status).1
    rw [Model.P4.run, operands, whole, ForegroundLine.stations]
    cases line.rest <;> rfl
  have increasing : (line.stations exitStatus).Pairwise
      fun s t => s.command.place < t.command.place := (place_stations ..).1
  have keys : (openings 0 line.first (named line.rest) ++ pipes 0 (wordsOf (named line.rest)) ++
      ([] : List Side).map (0, ·)).Perm ((line.stations exitStatus).flatMap Station.keys) :=
    keys_perm ..
  rw [List.map_nil, List.append_nil] at keys
  have once := nodup_ends increasing
  rw [Build.run_eq, executed, Build.foldl_close, closed, List.nil_append,
    and_iff_left (holds.nodup_closed once), ← tidy_iff increasing, ← keys.nodup_iff,
    ← keys.subset_congr_left]
  exact holds.restored_iff once

/-- A line is built, and after it was run the descriptors that are open are those that were, none of
them closed twice, exactly when no command was given two descriptors for one side and those that were
skipped were given none. -/
theorem no_leak_iff (line : ForegroundLine) (exitStatus : Command → Status) (status : Status)
    (table : Finset ℕ) : ∃ b, build line.words ⟨table, []⟩ = some b ∧
      ((b.run exitStatus status).table = table ∧ (b.run exitStatus status).closed.Nodup ↔
        ∀ s ∈ line.stations exitStatus, s.Tidy) := by
  obtain ⟨b, built⟩ := exists_build_words line ⟨table, []⟩
  exact ⟨b, built, restored_iff built exitStatus status⟩

/-- `a < f < g` -/
def twoInputs : ForegroundLine where
  first := [.argument ['a'] (by decide), .redirection .input ['f'], .redirection .input ['g']]
  rest := []
  commands := by decide

/-- The file `f` stays open. -/
theorem no_leak_fails : ¬ ∀ (line : ForegroundLine) (exitStatus : Command → Status) (status : Status)
    (table : Finset ℕ) (b : Build), build line.words ⟨table, []⟩ = some b →
      (b.run exitStatus status).table = table ∧ (b.run exitStatus status).closed.Nodup := by
  intro all
  obtain ⟨b, built⟩ := exists_build_words twoInputs ⟨∅, []⟩
  have tidy := (restored_iff built (fun _ => .exited 0) (.exited 0)).mp (all _ _ _ _ _ built)
  have once := (tidy _ (List.mem_cons_self ..)).1
  revert once
  decide

end SphereMultithreading.Soundness.P4
