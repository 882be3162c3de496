import SphereMultithreading.Machine.AndOrList

/-! # Programs in pipelines

A program reads, writes and exits. Run alone it turns an input into an output and a status, and may leave
some of its input. In a pipeline each program reads what the one before it has written, which is to fit
what is between them, and an and-or list goes by the statuses of its pipelines.
-/

namespace SphereMultithreading.Machine.Pipelines

open AndOrList

variable {κ σ β τ : Type}

/-- What a program does next. A read at the end of the input gets nothing. -/
inductive Request (σ β τ : Type) where
  | read (next : Option β → σ)
  | write (x : β) (next : σ)
  | exit (status : τ)

/-- A program takes `n` steps from a state to its end, which turn the input into what is left of it, an
output and a status. It can find the input ended only if nobody can add to it. -/
inductive Runs (next : σ → Request σ β τ) (ends : Prop) : ℕ → σ → List β → List β → List β → τ → Prop
  | exit {s : σ} {input : List β} {status : τ} (here : next s = .exit status) :
      Runs next ends 1 s input input [] status
  | write {n : ℕ} {s s' : σ} {x : β} {input rest output : List β} {status : τ}
      (here : next s = .write x s') (later : Runs next ends n s' input rest output status) :
      Runs next ends (n + 1) s input rest (x :: output) status
  | read {n : ℕ} {s : σ} {k : Option β → σ} {x : β} {input rest output : List β} {status : τ}
      (here : next s = .read k) (later : Runs next ends n (k (some x)) input rest output status) :
      Runs next ends (n + 1) s (x :: input) rest output status
  | endOfFile {n : ℕ} {s : σ} {k : Option β → σ} {rest output : List β} {status : τ} (ended : ends)
      (here : next s = .read k) (later : Runs next ends n (k none) [] rest output status) :
      Runs next ends (n + 1) s [] rest output status

section Rules

variable {next : σ → Request σ β τ} {ends : Prop} {n : ℕ} {s s' : σ} {k : Option β → σ} {x : β}
  {input rest output : List β} {status status' : τ}

theorem runs_exit (here : next s = .exit status') : Runs next ends n s input rest output status ↔
    n = 1 ∧ rest = input ∧ output = [] ∧ status' = status := by
  constructor
  · intro ran
    cases ran with
    | exit here' =>
      cases here.symm.trans here'
      exact ⟨rfl, rfl, rfl, rfl⟩
    | write here' => cases here.symm.trans here'
    | read here' => cases here.symm.trans here'
    | endOfFile _ here' => cases here.symm.trans here'
  · rintro ⟨rfl, rfl, rfl, rfl⟩
    exact .exit here

theorem runs_write (here : next s = .write x s') : Runs next ends n s input rest output status ↔
    ∃ m later, n = m + 1 ∧ output = x :: later ∧ Runs next ends m s' input rest later status := by
  constructor
  · intro ran
    cases ran with
    | exit here' => cases here.symm.trans here'
    | write here' later =>
      cases here.symm.trans here'
      exact ⟨_, _, rfl, rfl, later⟩
    | read here' => cases here.symm.trans here'
    | endOfFile _ here' => cases here.symm.trans here'
  · rintro ⟨m, later, rfl, rfl, ran⟩
    exact .write here ran

theorem runs_read (here : next s = .read k) : Runs next ends n s (x :: input) rest output status ↔
    ∃ m, n = m + 1 ∧ Runs next ends m (k (some x)) input rest output status := by
  constructor
  · intro ran
    cases ran with
    | exit here' => cases here.symm.trans here'
    | write here' => cases here.symm.trans here'
    | read here' later =>
      cases here.symm.trans here'
      exact ⟨_, rfl, later⟩
  · rintro ⟨m, rfl, ran⟩
    exact .read here ran

theorem runs_endOfFile (here : next s = .read k) : Runs next ends n s [] rest output status ↔
    ∃ m, n = m + 1 ∧ ends ∧ Runs next ends m (k none) [] rest output status := by
  constructor
  · intro ran
    cases ran with
    | exit here' => cases here.symm.trans here'
    | write here' => cases here.symm.trans here'
    | endOfFile ended here' later =>
      cases here.symm.trans here'
      exact ⟨_, rfl, ended, later⟩
  · rintro ⟨m, rfl, ended, ran⟩
    exact .endOfFile ended here ran

end Rules

section Lists

variable (start : κ → σ) (next : σ → Request σ β τ) (capacity : ℕ)

/-- A pipeline as the composition of its programs. The input is that of the first of them, the output and the
status are those of the last. -/
inductive Flows : κ → List κ → List β → List β → List β → τ → Prop
  | last {n : ℕ} {c : κ} {input rest output : List β} {status : τ}
      (ran : Runs next True n (start c) input rest output status) :
      Flows c [] input rest output status
  | pipe {n : ℕ} {c d : κ} {others : List κ} {input rest between left output : List β}
      {earlier status : τ} (ran : Runs next True n (start c) input rest between earlier)
      (fits : between.length ≤ capacity) (flows : Flows d others between left output status) :
      Flows c (d :: others) input rest output status

/-- The rest of an and-or list, behind a pipeline with a status. What is skipped are single programs. -/
inductive Evaluates (success : τ → Bool) : τ → List (Connective × Pipeline κ) →
    List β → List β → List β → τ → Prop
  | nil {status : τ} {input : List β} : Evaluates success status [] input input [] status
  | executed {k : Connective} {p : Pipeline κ} {list : List (Connective × Pipeline κ)}
      {input between rest output later : List β} {status earlier final : τ}
      (continues : k.continues (success status) = true)
      (flows : Flows start next capacity p.first p.others input between output earlier)
      (evaluates : Evaluates success earlier list between rest later final) :
      Evaluates success status ((k, p) :: list) input rest (output ++ later) final
  | skipped {k : Connective} {p : Pipeline κ} {list : List (Connective × Pipeline κ)}
      {input rest later : List β} {status final : τ} (stops : k.continues (success status) = false)
      (single : p.others = []) (evaluates : Evaluates success status list input rest later final) :
      Evaluates success status ((k, p) :: list) input rest later final

/-- A line, whose first pipeline is always executed. -/
inductive Computes (success : τ → Bool) (line : AndOr κ) : List β → List β → List β → τ → Prop
  | intro {input between rest output later : List β} {earlier final : τ}
      (flows : Flows start next capacity line.first.first line.first.others input between output earlier)
      (evaluates : Evaluates start next capacity success earlier line.rest between rest later final) :
      Computes success line input rest (output ++ later) final

end Lists

end SphereMultithreading.Machine.Pipelines
