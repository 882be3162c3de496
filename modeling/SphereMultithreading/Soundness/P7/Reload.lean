import SphereMultithreading.Model.P7.Reload
import SphereMultithreading.Proofs.P7.Dictionary

/-! # The dictionary that requests are answered from

A file is never newer than now, so the dictionary is never loaded again.
-/

namespace SphereMultithreading.Soundness.P7

open Machine Model.P7 Model.P7.System Model.Scanf Proofs.P7

/-- Every request was answered from a trie built from what the file contained when its iteration called
`stat`. -/
def Fresh (s : System) : Prop :=
  ∀ entry ∈ s.answered, Trie.load entry.2 = some (.ok (), entry.1)

/-- A request comes in an iteration that finds the dictionary of the constructor in the file. -/
def Unchanged (contents : Text) (s : System) : Action → Prop
  | .request _ _ => Trie.load s.seen = Trie.load contents
  | _ => True

/-- The invariant: the clock is not behind the file, and the dictionary is the one that was loaded first. -/
structure Kept (dict : Trie) (s : System) : Prop where
  past : s.file.mtime ≤ s.clock
  compared : ∀ stMtime, s.position = .compare stMtime → stMtime ≤ s.clock
  dict : s.server.dict = dict

variable {s t : System} {a : Action} {dict : Trie} {contents : Text}

theorem dict_handle {server server' : Server} {fd : ℕ} {buffer : Text}
    (handled : server.handle fd buffer = .ok server') : server'.dict = server.dict := by
  unfold Server.handle at handled
  split at handled
  · cases answered : Server.processMessageFromClient server.dict buffer with
    | error fault =>
      rw [answered] at handled
      cases handled
    | ok answer =>
      rw [answered] at handled
      cases answer <;> cases handled <;> rfl
  · cases handled

theorem position_nextEvent (s : System) (n stMtime : ℕ) :
    (s.nextEvent n).position ≠ .compare stMtime := by
  rw [nextEvent]
  dsimp only
  split <;> simp

theorem kept_step (stepped : s.step a = some t) (kept : Kept dict s) : Kept dict t := by
  obtain ⟨past, compared, same⟩ := kept
  cases a with
  | tick seconds =>
    cases stepped
    exact ⟨past.trans (Nat.le_add_right ..),
      fun stMtime position => (compared stMtime position).trans (Nat.le_add_right ..), same⟩
  | write contents mtime =>
    obtain ⟨⟨-, bound⟩, stepped⟩ := Option.ite_none_right_eq_some.mp stepped
    cases stepped
    exact ⟨bound, compared, same⟩
  | stat =>
    rw [step, stat] at stepped
    split at stepped
    · cases stepped
      refine ⟨past, ?_, same⟩
      rintro stMtime ⟨⟩
      exact past
    · cases stepped
  | compare =>
    rw [step, System.compare] at stepped
    split at stepped
    · next stMtime position =>
      rw [if_neg (Nat.not_lt.mpr (compared stMtime position))] at stepped
      cases stepped
      exact ⟨past, by rintro stMtime ⟨⟩, same⟩
    · cases stepped
  | epollWait n =>
    rw [step, System.epollWait] at stepped
    split at stepped
    · obtain ⟨-, stepped⟩ := Option.ite_none_right_eq_some.mp stepped
      cases stepped
      exact ⟨past, by rintro stMtime ⟨⟩, same⟩
    · cases stepped
  | other =>
    rw [step, System.other] at stepped
    split at stepped
    · cases stepped
      exact ⟨past, fun stMtime position => absurd position (position_nextEvent _ _ _), same⟩
    · cases stepped
  | request fd buffer =>
    rw [step, request] at stepped
    split at stepped
    · next handled =>
      cases stepped
      exact ⟨past, fun stMtime position => absurd position (position_nextEvent _ _ _),
        (dict_handle handled).trans same⟩
    · cases stepped

/-- A request adds its own answer. -/
theorem answered_step (stepped : s.step a = some t) :
    t.answered = s.answered ++
      match a with
      | .request _ _ => [(s.server.dict, s.seen)]
      | _ => [] := by
  cases a with
  | tick seconds =>
    cases stepped
    exact (List.append_nil _).symm
  | write contents mtime =>
    obtain ⟨-, stepped⟩ := Option.ite_none_right_eq_some.mp stepped
    cases stepped
    exact (List.append_nil _).symm
  | stat =>
    rw [step, stat] at stepped
    split at stepped <;> cases stepped
    exact (List.append_nil _).symm
  | compare =>
    rw [step, System.compare] at stepped
    rw [List.append_nil]
    split at stepped
    · split at stepped
      · split at stepped <;> cases stepped <;> rfl
      · cases stepped
        rfl
    · cases stepped
  | epollWait n =>
    rw [step, System.epollWait] at stepped
    split at stepped
    · obtain ⟨-, stepped⟩ := Option.ite_none_right_eq_some.mp stepped
      cases stepped
      exact (List.append_nil _).symm
    · cases stepped
  | other =>
    rw [step, System.other] at stepped
    split at stepped <;> cases stepped
    exact (List.append_nil _).symm
  | request fd buffer =>
    rw [step, request] at stepped
    split at stepped <;> cases stepped
    rfl

theorem fresh_step_iff (built : Trie.load contents = some (.ok (), dict)) (stepped : s.step a = some t)
    (kept : Kept dict s) (fresh : Fresh s) : Fresh t ↔ Unchanged contents s a := by
  rw [Fresh, answered_step stepped]
  cases a with
  | request fd buffer =>
    rw [Unchanged, built, List.forall_mem_append, List.forall_mem_singleton, kept.dict]
    exact and_iff_right fresh
  | _ =>
    rw [List.append_nil]
    exact iff_of_true fresh trivial

/-- In every run, every request is answered from what the file contained at the last `stat` exactly when the
trie of that is always the one of the constructor. -/
theorem fresh_iff {file : File} {clock : ℕ} (built : Trie.load file.contents = some (.ok (), dict))
    (past : file.mtime ≤ clock) {actions : List Action}
    (success : run step (init file clock dict) actions = some t) :
    Throughout step Fresh (init file clock dict) actions ↔
      Guarded step (Unchanged file.contents) (init file clock dict) actions := by
  apply throughout_iff_guarded (I := fun s => Kept dict s ∧ Fresh s) _ _ _ success
  · exact ⟨⟨past, by rintro stMtime ⟨⟩, rfl⟩, by rintro entry ⟨⟩⟩
  · exact fun _ both => both.2
  · rintro s a t stepped ⟨kept, fresh⟩ unchanged
    exact ⟨kept_step stepped kept, (fresh_step_iff built stepped kept fresh).mpr unchanged⟩
  · rintro s a t stepped ⟨kept, fresh⟩ fresh'
    exact (fresh_step_iff built stepped kept fresh).mp fresh'

/-- An empty dictionary is given a word, and a second later somebody asks for it. -/
def rewritten : List Action :=
  [.tick 1, .write ['a', '\n'] 1, .tick 1, .stat, .compare, .epollWait 1, .request 5 ['a']]

theorem fresh_iff_rewritten : ∃ t, run step (init ⟨[], 0⟩ 0 .new) rewritten = some t ∧
    (Throughout step Fresh (init ⟨[], 0⟩ 0 .new) rewritten ↔
      Guarded step (Unchanged []) (init ⟨[], 0⟩ 0 .new) rewritten) := by
  have built : Trie.load [] = some (.ok (), .new) := loadLoop_nil .new
  have success : run step (init ⟨[], 0⟩ 0 .new) rewritten = some _ := rfl
  exact ⟨_, success, fresh_iff built le_rfl success⟩

/-- The word is not found. -/
theorem fresh_fails : ∃ t, run step (init ⟨[], 0⟩ 0 .new) rewritten = some t ∧
    t.answered = [(.new, ['a', '\n'])] ∧ ¬ Fresh t := by
  refine ⟨_, rfl, rfl, fun fresh => ?_⟩
  have built := fresh (.new, ['a', '\n']) (List.mem_singleton_self _)
  have file : ∀ c ∈ ['a', '\n'], IsLetter c ∨ c = '\n' := by simp [IsLetter]
  obtain ⟨trie, loaded, holds⟩ := loadLoop_letters holds_new file
  cases built.symm.trans loaded
  refine not_stored_new (letters ['a']) ((holds.stored _).mpr ⟨['a'], ?_, rfl⟩)
  rw [show ['a', '\n'] = ['a'] ++ '\n' :: [] from rfl, words_line (by decide) (by decide)]
  exact List.mem_cons_self ..

end SphereMultithreading.Soundness.P7
