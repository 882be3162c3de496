import SphereMultithreading.Proofs.P4.Loop
import SphereMultithreading.Soundness.P4.AndOr
import SphereMultithreading.Soundness.P4.Statuses

/-! # The child of a failed `execvp`

When `execvp` fails, the child goes on in `run` like the shell that forked it, and reads lines like it.
As long as none fails, every line is run by one interpreter, and what is started for it is what the
meaning of the line selects.
-/

namespace SphereMultithreading.Soundness.P4

open Machine Machine.AndOrList Model.P4 System

/-! ## Lines that are skipped as they should be -/

section Lines

variable {exitStatus : Command → Status}

end Lines

/-! ## What a run does -/

/-- What is started for a line of the script. -/
def startsOf (s : System) (n : ℕ) : List Start := s.started.filter fun start => start.line = n

def commandsOf (s : System) (n : ℕ) : List Command := (startsOf s n).map (·.command)

def ExecSucceeds (fails : List Word → Bool) (s : System) : Action → Prop
  | .exec p _ => ∀ x ∈ s.process? p, ∀ command rest, x.activity = .exec command rest →
      fails command.cmd = false
  | _ => True

/-- The inner loop of `run` does not end at a `|`. -/
def SkipsWhole (s : System) : Action → Prop
  | .advance p => ∀ x ∈ s.process? p, ∀ loop status operands, x.activity = .run loop status operands →
      breaksAtPipe loop operands = false
  | _ => True

variable {fails : List Word → Bool} {seekable : Bool} {script : List (List Word)} {s t : System}

private def bare (x : Process) : Process := { x with collected := false }

private def seen (s : System) (q : ℕ) : Option Process := (s.process? q).map bare

private theorem seen_of_found {p : ℕ} {x : Process} (found : s.process? p = some x) :
    seen s p = some (bare x) := by rw [seen, found, Option.map_some]

private theorem exitStatus_seen (s : System) (q : ℕ) :
    s.exitStatus q = (seen s q).bind fun x => x.activity.exitStatus := by
  rw [exitStatus, seen, Option.bind_map]
  rfl

private theorem seen_modify {p : ℕ} {x : Process} {f : Process → Process}
    (found : s.process? p = some x) :
    seen (s.modify p f) = Function.update (seen s) p (some (bare (f x))) := by
  funext q
  rw [seen, process?_modify, Function.update_apply, seen]
  split
  · next same => rw [same, found, Option.map_some, Option.map_some]
  · rfl

private theorem seen_collected (s : System) (p : ℕ) :
    seen (s.modify p fun process => { process with collected := true }) = seen s := by
  funext q
  rw [seen, process?_modify, seen]
  split
  · rw [Option.map_map]
    rfl
  · rfl

private theorem seen_collect (s : System) (p : ℕ) : seen (s.collect p) = seen s := by
  funext q
  rw [seen, process?_collect, seen, Option.map_map]
  refine congrArg (Option.map · _) (funext fun x => ?_)
  rw [Function.comp_apply]
  split <;> rfl

private theorem seen_spawn (s : System) (child : Process) :
    seen (s.spawn child) = Function.update (seen s) s.processes.length (some (bare child)) := by
  funext q
  rw [seen, process?_spawn, Function.update_apply, seen]
  split <;> rfl

/-! ## One interpreter for every line -/

/-- Within a line. -/
def within : Activity → Bool
  | .run .. | .wait .. => true
  | _ => false

/-- What the rest of a line executes. -/
def remaining (exitStatus : Command → Status) : Activity → List Command
  | .run loop status operands => runLoop exitStatus loop status operands
  | .wait _ command rest => runLoop exitStatus .outer (exitStatus command) rest
  | _ => []

def passesOn (exitStatus : Command → Status) : Activity → Prop
  | .run loop status operands => Passes exitStatus loop status operands
  | .wait _ command rest => Passes exitStatus .outer (exitStatus command) rest
  | _ => True

/-- The exit statuses are those of the processes that have ended. -/
def Agrees (s : System) (n : ℕ) (exitStatus : Command → Status) : Prop :=
  ∀ start ∈ startsOf s n, ∀ status, s.exitStatus start.process = some status →
    exitStatus start.command = status

/-- What has been started for a line, and what an interpreter has still to execute, is what `run`
executes. -/
private structure Doing (script : List (List Word)) (s : System) (n : ℕ) (a : Activity) : Prop where
  follows : ∃ words status, script[n]? = some words ∧ ∀ exitStatus, Agrees s n exitStatus →
    commandsOf s n ++ remaining exitStatus a = run exitStatus status (operands words) ∧
      (passesOn exitStatus a → Passes exitStatus .outer status (operands words))
  ended : ∀ start ∈ startsOf s n,
    (s.exitStatus start.process).isSome ∨ a.awaits = some start.process
  awaited : ∀ child command rest, a = .wait child command rest → ⟨n, command, child⟩ ∈ s.started

/-- The first `k` lines have been read. -/
private structure Regular (script : List (List Word)) (s : System) (k : ℕ) : Prop where
  failed : s.failed = []
  lines : ∃ x, seen s 0 = some x ∧
    x.ahead ++ s.unread = (inputs script).drop k
  shell : ∀ q x, seen s q = some x → x.activity = .getline → q = 0
  background : ∀ q x, seen s q = some x → within x.activity → q ≠ 0 → x.background = true
  doing : ∀ q x, seen s q = some x → within x.activity →
    Doing script s x.line x.activity ∧ x.line < k ∧ x.line ∉ s.finished
  alone : ∀ q q' x x', seen s q = some x → seen s q' = some x' → within x.activity →
    within x'.activity → x.line = x'.line → q = q'
  finished : ∀ n ∈ s.finished, n < k ∧ Doing script s n .program
  begun : ∀ start ∈ s.started, start.line < k
  once : ∀ n, (commandsOf s n).Nodup

/-- Statuses to go on with, whatever has not ended yet. -/
private theorem exists_agrees {n : ℕ} (once : (commandsOf s n).Nodup) :
    ∃ exitStatus, Agrees s n exitStatus ∧ ∀ start ∈ startsOf s n,
      exitStatus start.command = (s.exitStatus start.process).getD (.exited 0) := by
  let lookup (c : Command) := (startsOf s n).find? fun start => start.command = c
  have found {start : Start} (member : start ∈ startsOf s n) : lookup start.command = some start := by
    cases looked : lookup start.command with
    | none => simpa using List.find?_eq_none.mp looked start member
    | some other =>
      have same : other.command = start.command := by simpa using List.find?_some looked
      exact congrArg some (List.inj_on_of_nodup_map once (List.mem_of_find?_eq_some looked) member same)
  refine ⟨fun c => ((lookup c).bind fun start => s.exitStatus start.process).getD (.exited 0), ?_, ?_⟩
  · intro start member status ended
    dsimp only
    rw [found member, Option.bind_some, ended, Option.getD_some]
  · intro start member
    dsimp only
    rw [found member, Option.bind_some]

/-- Other processes only end. -/
private theorem Doing.mono {n : ℕ} {a : Activity} (doing : Doing script s n a)
    (starts : startsOf t n = startsOf s n) (started : ∀ start ∈ s.started, start ∈ t.started)
    (mono : ∀ q status, s.exitStatus q = some status → t.exitStatus q = some status) :
    Doing script t n a := by
  have agrees {exitStatus : Command → Status} (agrees : Agrees t n exitStatus) :
      Agrees s n exitStatus := fun start member status ended =>
    agrees start (starts ▸ member) status (mono _ _ ended)
  obtain ⟨words, status, line, follows⟩ := doing.follows
  refine ⟨⟨words, status, line, fun exitStatus agreed => ?_⟩, fun start member => ?_, ?_⟩
  · rw [commandsOf, starts]
    exact follows exitStatus (agrees agreed)
  · rw [starts] at member
    refine (doing.ended start member).imp_left fun ended => ?_
    obtain ⟨status, ended⟩ := Option.isSome_iff_exists.mp ended
    rw [mono _ _ ended]
    rfl
  · exact fun child command rest waits => started _ (doing.awaited child command rest waits)

/-- The command that is started is waited for. -/
private theorem Doing.start {n child : ℕ} {status : Status} {command : Command} {rest : List Operand}
    (doing : Doing script s n (.run .outer status (.cmd command :: rest)))
    (starts : startsOf t n = startsOf s n ++ [⟨n, command, child⟩])
    (mono : ∀ q status, s.exitStatus q = some status → t.exitStatus q = some status) :
    Doing script t n (.wait child command rest) where
  follows := by
    obtain ⟨words, first, line, follows⟩ := doing.follows
    refine ⟨words, first, line, fun exitStatus agrees => ?_⟩
    have before : Agrees s n exitStatus := fun start member status ended =>
      agrees start (starts ▸ List.mem_append_left _ member) status (mono _ _ ended)
    obtain ⟨executed, passes⟩ := follows exitStatus before
    refine ⟨?_, passes⟩
    rw [commandsOf, starts, List.map_append, List.append_assoc]
    exact executed
  ended := by
    intro start member
    rw [starts] at member
    rcases List.mem_append.mp member with old | new
    · rcases doing.ended start old with ended | awaits
      · obtain ⟨status, ended⟩ := Option.isSome_iff_exists.mp ended
        exact .inl (by rw [mono _ _ ended]; rfl)
      · cases awaits
    · obtain rfl := List.mem_singleton.mp new
      exact .inr rfl
  awaited := by
    intro child' command' rest' same
    cases same
    have member : ⟨n, command, child⟩ ∈ startsOf t n := by
      rw [starts]
      exact List.mem_append_right _ (List.mem_singleton_self _)
    exact List.mem_of_mem_filter member

/-- What is started next has not been started: with statuses to go on with, it is part of what `run`
executes. -/
private theorem Doing.nodup {n : ℕ} {status : Status} {command : Command} {rest : List Operand}
    (doing : Doing script s n (.run .outer status (.cmd command :: rest)))
    (once : (commandsOf s n).Nodup) : (commandsOf s n ++ [command]).Nodup := by
  obtain ⟨words, first, -, follows⟩ := doing.follows
  obtain ⟨exitStatus, agrees, -⟩ := exists_agrees once
  have distinct : (run exitStatus first (operands words)).Nodup :=
    (runLoop_sublist exitStatus .outer first (operands words)).nodup (nodup_commands words)
  rw [← (follows exitStatus agrees).1] at distinct
  change (commandsOf s n ++ command :: _).Nodup at distinct
  rw [List.append_cons] at distinct
  exact (List.nodup_append.mp distinct).1

section Changed

variable {p : ℕ} {x' : Process} (changed : seen t = Function.update (seen s) p (some x'))
include changed

private theorem seen_cases {q : ℕ} {y : Process} (listed : seen t q = some y) :
    q = p ∧ y = x' ∨ q ≠ p ∧ seen s q = some y := by
  rw [changed] at listed
  rcases eq_or_ne q p with rfl | differ
  · rw [Function.update_self, Option.some.injEq] at listed
    exact .inl ⟨rfl, listed.symm⟩
  · rw [Function.update_of_ne differ] at listed
    exact .inr ⟨differ, listed⟩

/-- Exit statuses stay when a process changes that has none. -/
private theorem exitStatus_mono (live : ∀ x ∈ seen s p, x.activity.exitStatus = none) (q : ℕ)
    (status : Status) (ended : s.exitStatus q = some status) : t.exitStatus q = some status := by
  rw [exitStatus_seen] at ended ⊢
  rcases eq_or_ne q p with rfl | differ
  · obtain ⟨x, found, ended⟩ := Option.bind_eq_some_iff.mp ended
    rw [live x found] at ended
    contradiction
  · rwa [changed, Function.update_of_ne differ]

end Changed

private theorem live_of_found {p : ℕ} {x : Process} (found : seen s p = some x)
    (live : x.activity.exitStatus = none) : ∀ x ∈ seen s p, x.activity.exitStatus = none := by
  intro y listed
  obtain rfl := Option.some.inj (found.symm.trans listed)
  exact live

namespace Regular

variable {k : ℕ}

theorem init (seekable : Bool) (script : List (List Word)) :
    Regular script (System.init seekable script) 0 := by
  have only {q : ℕ} {x : Process} (found : seen (System.init seekable script) q = some x) :
      q = 0 ∧ x = ⟨none, false, false, 0, [], .getline⟩ := by
    obtain ⟨y, listed, rfl⟩ := Option.map_eq_some_iff.mp found
    obtain ⟨inside, rfl⟩ := List.getElem?_eq_some_iff.mp listed
    obtain rfl : q = 0 := by simpa [System.init] using inside
    exact ⟨rfl, rfl⟩
  constructor
  · rfl
  · exact ⟨_, rfl, rfl⟩
  · exact fun q x found _ => (only found).1
  · intro q x found inside
    simp [(only found).2, within] at inside
  · intro q x found inside
    simp [(only found).2, within] at inside
  · intro q q' x x' found _ inside
    simp [(only found).2, within] at inside
  · intro n member
    cases member
  · intro start member
    cases member
  · exact fun n => List.nodup_nil

/-- A process that has not ended does something else, or ends. -/
theorem change (regular : Regular script s k) {k' p : ℕ} {x x' : Process} (found : seen s p = some x)
    (live : x.activity.exitStatus = none) (changed : seen t = Function.update (seen s) p (some x'))
    (failed : t.failed = s.failed) (started : t.started = s.started)
    (finished : t.finished = s.finished) (le : k ≤ k')
    (lines : ∃ y, seen t 0 = some y ∧ y.ahead ++ t.unread = (inputs script).drop k')
    (shell : x'.activity = .getline → p = 0)
    (background : within x'.activity → p ≠ 0 → x'.background = true)
    (doing : within x'.activity → Doing script s x'.line x'.activity ∧ x'.line < k' ∧
      x'.line ∉ s.finished)
    (alone : within x'.activity → ∀ q y, q ≠ p → seen s q = some y → within y.activity →
      y.line ≠ x'.line) : Regular script t k' := by
  have starts (n : ℕ) : startsOf t n = startsOf s n := by rw [startsOf, started, startsOf]
  have kept {n : ℕ} {a : Activity} (doing : Doing script s n a) : Doing script t n a :=
    doing.mono (starts n) (fun start member => started ▸ member)
      (exitStatus_mono changed (live_of_found found live))
  refine ⟨failed.trans regular.failed, lines, fun q y listed => ?_, fun q y listed => ?_,
    fun q y listed inside => ?_, fun q q' y y' listed listed' inside inside' same => ?_,
    fun n member => ?_, fun start member => ?_, fun n => ?_⟩
  · rcases seen_cases changed listed with ⟨rfl, rfl⟩ | ⟨-, listed⟩
    · exact shell
    · exact regular.shell q y listed
  · rcases seen_cases changed listed with ⟨rfl, rfl⟩ | ⟨-, listed⟩
    · exact background
    · exact regular.background q y listed
  · rw [finished]
    rcases seen_cases changed listed with ⟨rfl, rfl⟩ | ⟨-, listed⟩
    · exact (doing inside).imp_left kept
    · obtain ⟨does, below, open_⟩ := regular.doing q y listed inside
      exact ⟨kept does, Nat.lt_of_lt_of_le below le, open_⟩
  · rcases seen_cases changed listed with ⟨rfl, rfl⟩ | ⟨differ, listed⟩ <;>
      rcases seen_cases changed listed' with ⟨rfl, rfl⟩ | ⟨differ', listed'⟩
    · rfl
    · exact absurd same.symm (alone inside q' y' differ' listed' inside')
    · exact absurd same (alone inside' q y differ listed inside)
    · exact regular.alone q q' y y' listed listed' inside inside' same
  · rw [finished] at member
    obtain ⟨below, does⟩ := regular.finished n member
    exact ⟨Nat.lt_of_lt_of_le below le, kept does⟩
  · rw [started] at member
    exact Nat.lt_of_lt_of_le (regular.begun start member) le
  · rw [commandsOf, starts]
    exact regular.once n

/-- The lines that are left, when what one process has read ahead stays the same. -/
theorem lines_of_same (regular : Regular script s k) {p : ℕ} {x x' : Process}
    (found : seen s p = some x) (changed : seen t = Function.update (seen s) p (some x'))
    (ahead : x'.ahead = x.ahead) (unread : t.unread = s.unread) :
    ∃ y, seen t 0 = some y ∧ y.ahead ++ t.unread = (inputs script).drop k := by
  obtain ⟨y, first, lines⟩ := regular.lines
  rw [changed, unread]
  rcases eq_or_ne 0 p with rfl | differ
  · obtain rfl := Option.some.inj (found.symm.trans first)
    exact ⟨x', Function.update_self .., by rw [ahead, lines]⟩
  · exact ⟨y, by rw [Function.update_of_ne differ, first], lines⟩

/-- An interpreter goes on within its line, or leaves it. -/
theorem proceed (regular : Regular script s k) {p : ℕ} {x : Process} {a : Activity}
    (found : seen s p = some x) (inside : within x.activity)
    (changed : seen t = Function.update (seen s) p (some { x with activity := a }))
    (failed : t.failed = s.failed) (started : t.started = s.started)
    (finished : t.finished = s.finished) (unread : t.unread = s.unread)
    (shell : a = .getline → p = 0) (doing : within a → Doing script s x.line a) :
    Regular script t k := by
  have live : x.activity.exitStatus = none := by
    cases activity : x.activity <;> simp_all [within, Activity.exitStatus]
  obtain ⟨-, below, open_⟩ := regular.doing p x found inside
  refine regular.change found live changed failed started finished (Nat.le_refl k)
    (regular.lines_of_same found changed rfl unread) shell
    (fun _ => regular.background p x found inside) (fun inside' => ⟨doing inside', below, open_⟩) ?_
  intro _ q y differ listed inside' same
  exact differ (regular.alone q p y x listed found inside' inside same)

/-- An interpreter starts a command: it waits for a process that is yet to come. -/
theorem start (regular : Regular script s k) {p n : ℕ} {x : Process} {status : Status}
    {command : Command} {rest : List Operand} (found : seen s p = some x)
    (runs : x.activity = .run .outer status (.cmd command :: rest))
    (changed : seen t = Function.update (seen s) p (some { x with activity := .wait n command rest }))
    (failed : t.failed = s.failed) (started : t.started = s.started ++ [⟨x.line, command, n⟩])
    (finished : t.finished = s.finished) (unread : t.unread = s.unread) : Regular script t k := by
  have inside : within x.activity := by rw [runs]; rfl
  have live : x.activity.exitStatus = none := by rw [runs]; rfl
  obtain ⟨doing, below, open_⟩ := regular.doing p x found inside
  rw [runs] at doing
  have mono := exitStatus_mono changed (live_of_found found live)
  have elsewhere {m : ℕ} (differ : x.line ≠ m) : startsOf t m = startsOf s m := by
    rw [startsOf, started, List.filter_append, List.filter_singleton, startsOf]
    simp [differ]
  have here : startsOf t x.line = startsOf s x.line ++ [⟨x.line, command, n⟩] := by
    rw [startsOf, started, List.filter_append, List.filter_singleton, startsOf]
    simp
  have kept {m : ℕ} {a : Activity} (differ : x.line ≠ m) (doing : Doing script s m a) :
      Doing script t m a :=
    doing.mono (elsewhere differ) (fun start member => started ▸ List.mem_append_left _ member) mono
  refine ⟨failed.trans regular.failed, regular.lines_of_same found changed rfl unread,
    fun q y listed => ?_, fun q y listed => ?_, fun q y listed inside' => ?_,
    fun q q' y y' listed listed' inside' inside'' same => ?_, fun m member => ?_,
    fun start member => ?_, fun m => ?_⟩
  · rcases seen_cases changed listed with ⟨rfl, rfl⟩ | ⟨-, listed⟩
    · simp
    · exact regular.shell q y listed
  · rcases seen_cases changed listed with ⟨rfl, rfl⟩ | ⟨-, listed⟩
    · exact fun _ => regular.background q x found inside
    · exact regular.background q y listed
  · rw [finished]
    rcases seen_cases changed listed with ⟨rfl, rfl⟩ | ⟨differ, listed⟩
    · exact ⟨doing.start here mono, below, open_⟩
    · obtain ⟨does, below', open'⟩ := regular.doing q y listed inside'
      refine ⟨kept (fun same => differ ?_) does, below', open'⟩
      exact regular.alone q p y x listed found inside' inside same.symm
  · rcases seen_cases changed listed with ⟨rfl, rfl⟩ | ⟨differ, listed⟩ <;>
      rcases seen_cases changed listed' with ⟨rfl, rfl⟩ | ⟨differ', listed'⟩
    · rfl
    · exact regular.alone q q' x y' found listed' inside inside'' same
    · exact regular.alone q q' y x listed found inside' inside same
    · exact regular.alone q q' y y' listed listed' inside' inside'' same
  · rw [finished] at member
    obtain ⟨below', does⟩ := regular.finished m member
    exact ⟨below', kept (fun same => open_ (same ▸ member)) does⟩
  · rw [started] at member
    rcases List.mem_append.mp member with old | new
    · exact regular.begun start old
    · obtain rfl := List.mem_singleton.mp new
      exact below
  · rcases eq_or_ne x.line m with rfl | differ
    · rw [commandsOf, here, List.map_append]
      exact doing.nodup (regular.once x.line)
    · rw [commandsOf, elsewhere differ]
      exact regular.once m

/-- A process is added, that starts a line of its own or none. -/
theorem spawn (regular : Regular script s k) {child : Process} (shell : child.activity ≠ .getline)
    (begins : within child.activity → child.background = true ∧
      Doing script s child.line child.activity ∧ child.line < k ∧ child.line ∉ s.finished ∧
      ∀ q y, seen s q = some y → within y.activity → y.line ≠ child.line) :
    Regular script (s.spawn child) k := by
  have fresh : seen s s.processes.length = none := by
    rw [seen, process?_eq_none s _ (Nat.le_refl _), Option.map_none]
  have changed := seen_spawn s child
  have mono := exitStatus_mono changed (by simp [fresh])
  have kept {m : ℕ} {a : Activity} (doing : Doing script s m a) : Doing script (s.spawn child) m a :=
    doing.mono rfl (fun _ member => member) mono
  refine ⟨regular.failed, ?_, fun q y listed => ?_, fun q y listed => ?_, fun q y listed inside => ?_,
    fun q q' y y' listed listed' inside inside' same => ?_, fun m member => ?_, regular.begun,
    regular.once⟩
  · obtain ⟨x, first, lines⟩ := regular.lines
    refine ⟨x, ?_, lines⟩
    rw [changed, Function.update_of_ne, first]
    rintro same
    rw [← same, first] at fresh
    contradiction
  · rcases seen_cases changed listed with ⟨-, rfl⟩ | ⟨-, listed⟩
    · exact fun getline => absurd getline shell
    · exact regular.shell q y listed
  · rcases seen_cases changed listed with ⟨-, rfl⟩ | ⟨-, listed⟩
    · exact fun inside _ => (begins inside).1
    · exact regular.background q y listed
  · rcases seen_cases changed listed with ⟨-, rfl⟩ | ⟨-, listed⟩
    · obtain ⟨-, does, below, open_, -⟩ := begins inside
      exact ⟨kept does, below, open_⟩
    · exact (regular.doing q y listed inside).imp_left kept
  · rcases seen_cases changed listed with ⟨rfl, rfl⟩ | ⟨-, listed⟩ <;>
      rcases seen_cases changed listed' with ⟨rfl, rfl⟩ | ⟨-, listed'⟩
    · rfl
    · exact absurd same.symm ((begins inside).2.2.2.2 q' y' listed' inside')
    · exact absurd same ((begins inside').2.2.2.2 q y listed inside)
    · exact regular.alone q q' y y' listed listed' inside inside' same
  · exact (regular.finished m member).imp_right kept

/-- A line that nobody is within any more is finished. -/
theorem finish (regular : Regular script s k) {n : ℕ} (below : n < k)
    (done : Doing script s n .program)
    (left : ∀ q y, seen s q = some y → within y.activity → y.line ≠ n) :
    Regular script { s with finished := s.finished ++ [n] } k := by
  have kept {m : ℕ} {a : Activity} (doing : Doing script s m a) :
      Doing script { s with finished := s.finished ++ [n] } m a :=
    doing.mono rfl (fun _ member => member) fun _ _ ended => ended
  refine ⟨regular.failed, regular.lines, regular.shell, regular.background,
    fun q y listed inside => ?_, regular.alone, fun m member => ?_, regular.begun, regular.once⟩
  · obtain ⟨does, below', open_⟩ := regular.doing q y listed inside
    refine ⟨kept does, below', fun member => ?_⟩
    rcases List.mem_append.mp member with old | new
    · exact open_ old
    · exact left q y listed inside (List.mem_singleton.mp new)
  · rcases List.mem_append.mp member with old | new
    · exact (regular.finished m old).imp_right kept
    · rw [List.mem_singleton.mp new]
      exact ⟨below, kept done⟩

end Regular

/-! ## The steps -/

/-- The line that is read next. -/
private theorem input_of_drop {k : ℕ} {input : Input} {later : List Input}
    (lines : input :: later = (inputs script).drop k) :
    input.number = k ∧ script[k]? = some input.commandsParsed ∧
      later = (inputs script).drop (k + 1) := by
  have here : (inputs script)[k]? = some input := by
    rw [← List.head?_drop, ← lines, List.head?_cons]
  rw [inputs, List.getElem?_map, List.getElem?_zipIdx, Nat.zero_add, Option.map_map,
    Option.map_eq_some_iff] at here
  obtain ⟨words, listed, rfl⟩ := here
  refine ⟨rfl, listed, ?_⟩
  rw [← List.drop_drop, ← lines, List.drop_one, List.tail_cons]

namespace Doing

variable {n : ℕ}

theorem begin {words : List Word} (none : startsOf s n = []) (line : script[n]? = some words)
    (status : Status) : Doing script s n (.run .outer status (operands words)) where
  follows := by
    refine ⟨words, status, line, fun exitStatus _ => ⟨?_, id⟩⟩
    rw [commandsOf, none]
    rfl
  ended := by simp [none]
  awaited := by simp

theorem advance {loop loop' : Loop} {status : Status} {operands rest : List Operand}
    (doing : Doing script s n (.run loop status operands))
    (turned : advanceLoop loop status operands = some (loop', rest))
    (whole : breaksAtPipe loop operands = false) : Doing script s n (.run loop' status rest) where
  follows := by
    obtain ⟨words, first, line, follows⟩ := doing.follows
    refine ⟨words, first, line, fun exitStatus agrees => ?_⟩
    obtain ⟨executed, passes⟩ := follows exitStatus agrees
    rw [remaining, runLoop_advance turned] at executed
    exact ⟨executed, fun later => passes (passes_advance turned whole later)⟩
  ended := doing.ended
  awaited := by simp

/-- The status of the process that was waited for. -/
theorem waited {child : ℕ} {command : Command} {rest : List Operand} {status : Status}
    (doing : Doing script s n (.wait child command rest))
    (ended : s.exitStatus child = some status) : Doing script s n (.run .outer status rest) where
  follows := by
    obtain ⟨words, first, line, follows⟩ := doing.follows
    refine ⟨words, first, line, fun exitStatus agrees => ?_⟩
    have listed : ⟨n, command, child⟩ ∈ startsOf s n :=
      List.mem_filter.mpr ⟨doing.awaited child command rest rfl, by simp⟩
    have given : exitStatus command = status := agrees _ listed status ended
    rw [← given]
    exact follows exitStatus agrees
  ended := by
    intro start member
    refine .inl ((doing.ended start member).elim id fun awaits => ?_)
    obtain rfl : child = start.process := Option.some.inj awaits
    rw [ended]
    rfl
  awaited := by simp

theorem finish {loop : Loop} {status : Status} (doing : Doing script s n (.run loop status [])) :
    Doing script s n .program where
  follows := by
    obtain ⟨words, first, line, follows⟩ := doing.follows
    refine ⟨words, first, line, fun exitStatus agrees => ?_⟩
    obtain ⟨executed, passes⟩ := follows exitStatus agrees
    rw [remaining, runLoop] at executed
    exact ⟨executed, fun _ => passes (by rw [passesOn, Passes]; trivial)⟩
  ended := doing.ended
  awaited := by simp

end Doing

namespace Regular

variable {k p : ℕ}

theorem startsOf_eq_nil (regular : Regular script s k) : startsOf s k = [] := by
  rw [startsOf, List.filter_eq_nil_iff]
  intro start member same
  have := regular.begun start member
  simp only [decide_eq_true_eq] at same
  omega

/-- The program of a command, and a process that ends. -/
theorem leave (regular : Regular script s k) {x : Process} {a : Activity}
    (found : s.process? p = some x) (live : x.activity.exitStatus = none) (outside : within a = false)
    (busy : a ≠ .getline) : Regular script (s.setActivity p a) k := by
  have listed := seen_of_found found
  have changed := seen_modify (f := fun process => { process with activity := a }) found
  refine regular.change listed live changed rfl rfl rfl (Nat.le_refl k)
    (regular.lines_of_same listed changed rfl rfl) (fun getline => absurd getline busy) ?_ ?_ ?_
  all_goals exact fun inside => absurd inside (by simp [bare, outside])

theorem read (regular : Regular script s k) {n : ℕ} (stepped : s.read p n = some t) :
    Regular script t k := by
  obtain ⟨x, found, ahead, getline, -, rfl⟩ := read_eq_some stepped
  have listed := seen_of_found found
  obtain rfl := regular.shell p _ listed getline
  obtain ⟨y, first, lines⟩ := regular.lines
  obtain rfl := Option.some.inj (listed.symm.trans first)
  have changed : seen _ = _ := seen_modify (s := { s with unread := s.unread.drop (n + 1) })
    (f := fun process => { process with ahead := s.unread.take (n + 1) }) found
  refine regular.change listed (by rw [bare, getline]; rfl) changed rfl rfl rfl (Nat.le_refl k)
    ⟨_, by rw [changed, Function.update_self], ?_⟩ (fun _ => rfl) ?_ ?_ ?_
  · rw [← lines]
    change s.unread.take (n + 1) ++ s.unread.drop (n + 1) = x.ahead ++ s.unread
    rw [List.take_append_drop, ahead, List.nil_append]
  all_goals exact fun inside => absurd inside (by simp [bare, getline, within])

/-- A line is begun by the shell or by a process that the shell forks for it. -/
theorem getline (regular : Regular script s k) {status : Status}
    (stepped : s.getline p status = some t) : Regular script t (k + 1) := by
  obtain ⟨x, input, ahead, found, reads, getline, moved⟩ := getline_eq_some stepped
  have listed : seen (s.collect p) p = some (bare x) := by rw [seen_collect, seen_of_found found]
  have before : seen s p = some (bare x) := seen_of_found found
  obtain rfl := regular.shell p _ before getline
  obtain ⟨y, first, lines⟩ := regular.lines
  obtain rfl := Option.some.inj (before.symm.trans first)
  change x.ahead ++ s.unread = _ at lines
  rw [reads, List.cons_append] at lines
  obtain ⟨number, line, later⟩ := input_of_drop lines
  have live : (bare x).activity.exitStatus = none := by rw [bare, getline]; rfl
  have begins := Doing.begin regular.startsOf_eq_nil line status
  have unfinished : k ∉ s.finished := fun member =>
    absurd (regular.finished k member).1 (Nat.lt_irrefl k)
  have elsewhere (q : ℕ) (y : Process) (listed : seen s q = some y) (inside : within y.activity) :
      y.line ≠ k := by
    have := (regular.doing q y listed inside).2.1
    omega
  obtain ⟨x', found', same⟩ := Option.map_eq_some_iff.mp listed
  have read := seen_modify (f := fun process => { process with ahead := ahead }) found'
  have bare_ahead : bare { x' with ahead := ahead } = { bare x with ahead := ahead } := by
    rw [← same]
    rfl
  rw [seen_collect, bare_ahead] at read
  -- the line is read in any case
  have reading : Regular script
      ((s.collect 0).modify 0 fun process => { process with ahead := ahead }) (k + 1) := by
    refine regular.change before live read rfl rfl rfl (Nat.le_succ k)
      ⟨_, by rw [read, Function.update_self], later⟩ (fun _ => rfl) ?_ ?_ ?_
    all_goals exact fun inside => absurd inside (by simp [bare, getline, within])
  obtain ⟨-, rfl⟩ | ⟨-, rfl⟩ | ⟨-, rfl⟩ := moved
  · exact reading
  · refine reading.spawn (by simp) fun _ => ⟨rfl, ?_, ?_, ?_, ?_⟩
    · rw [number]
      exact begins.mono rfl (fun _ member => member) (exitStatus_mono read (live_of_found before live))
    · rw [number]
      exact Nat.lt_succ_self k
    · rw [number]
      exact unfinished
    · intro q y listed inside
      rw [read] at listed
      rcases eq_or_ne q 0 with rfl | differ
      · rw [Function.update_self, Option.some.injEq] at listed
        subst listed
        simp [bare, getline, within] at inside
      · rw [Function.update_of_ne differ] at listed
        rw [number]
        exact elsewhere q y listed inside
  · have found'' : ((s.collect 0).modify 0 fun process => { process with ahead := ahead }).process? 0 =
        some { x' with ahead := ahead } := process?_modify_self found' _
    have running := seen_modify (f := fun process => { process with
      line := input.number, activity := .run .outer status (operands input.commandsParsed) }) found''
    rw [read, Function.update_idem] at running
    refine regular.change before live running rfl rfl rfl (Nat.le_succ k)
      ⟨_, by rw [running, Function.update_self], later⟩ (fun _ => rfl) (fun _ away => absurd rfl away)
      (fun _ => ?_) fun _ q y _ listed inside => ?_
    · change Doing script s input.number _ ∧ input.number < k + 1 ∧ input.number ∉ s.finished
      rw [number]
      exact ⟨begins, Nat.lt_succ_self k, unfinished⟩
    · change y.line ≠ input.number
      rw [number]
      exact elsewhere q y listed inside

theorem advance (regular : Regular script s k) (stepped : s.advance p = some t)
    (whole : SkipsWhole s (.advance p)) : Regular script t k := by
  obtain ⟨x, loop, status, operands, loop', rest, found, runs, turned, rfl⟩ := advance_eq_some stepped
  have listed := seen_of_found found
  have inside : within (bare x).activity := by rw [bare, runs]; rfl
  have doing := (regular.doing p _ listed inside).1
  refine regular.proceed listed inside (seen_modify found) rfl rfl rfl rfl (by simp) fun _ => ?_
  rw [bare, runs] at doing
  exact doing.advance turned (whole x found loop status operands runs)

theorem fork (regular : Regular script s k) (stepped : s.fork p = some t) : Regular script t k := by
  obtain ⟨x, status, command, rest, found, runs, rfl⟩ := fork_eq_some stepped
  have started : Regular script { s.setActivity p (.wait s.processes.length command rest) with
      started := s.started ++ [⟨x.line, command, s.processes.length⟩] } k :=
    regular.start (seen_of_found found) runs (seen_modify found) rfl rfl rfl rfl
  let child : Process := ⟨some p, x.background, false, x.line, x.ahead, .exec command rest⟩
  have busy : child.activity ≠ .getline := by simp [child]
  exact started.spawn busy fun inside => absurd inside (by simp [within])

theorem exec (regular : Regular script s k) {status : Status}
    (stepped : s.exec fails p status = some t) (succeeds : ExecSucceeds fails s (.exec p status)) :
    Regular script t k := by
  obtain ⟨x, command, rest, found, execs, ⟨failing, -⟩ | ⟨-, rfl⟩⟩ := exec_eq_some stepped
  · rw [succeeds x found command rest execs] at failing
    contradiction
  · exact regular.leave found (by rw [execs]; rfl) rfl (by simp)

theorem wait (regular : Regular script s k) {q : ℕ} (stepped : s.wait p q = some t)
    (alone : WaitsAlone s (.wait p q)) : Regular script t k := by
  obtain ⟨x, y, child, command, rest, status, found, foundChild, waits, parent, fresh, ended, rfl⟩ :=
    wait_eq_some stepped
  obtain rfl : q = child := by
    refine alone x found child (by simp [waits, Activity.awaits]) q ?_
    exact mem_endedChildren_of_ended foundChild parent fresh ended
  have differ : p ≠ q := by
    rintro rfl
    obtain rfl := Option.some.inj (found.symm.trans foundChild)
    simp [waits] at ended
  have found' : (s.modify q fun process => { process with collected := true }).process? p = some x :=
    (process?_modify_of_ne differ _).trans found
  have changed := seen_modify
    (f := fun process => { process with activity := .run .outer status rest }) found'
  rw [seen_collected] at changed
  have listed := seen_of_found found
  have inside : within (bare x).activity := by rw [bare, waits]; rfl
  have doing := (regular.doing p _ listed inside).1
  refine regular.proceed listed inside changed rfl rfl rfl rfl (by simp) fun _ => ?_
  rw [bare, waits] at doing
  exact doing.waited (by rw [exitStatus_of_ended foundChild, ended]; rfl)

end Regular

end SphereMultithreading.Soundness.P4
